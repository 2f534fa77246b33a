import Cecore.Expression.Sum
import Mathlib.Data.List.Nodup
import Mathlib.Data.List.TakeWhile

/-!
# Module-relative names

`moduleOffsetString` of `core/types.cpp`, which writes an address as the name of its module and an
offset, and how the expression parser reads such a text.
-/

set_option autoImplicit false
set_option relaxedAutoImplicit false

namespace Cecore.Expression

/-- The address is in the module, whose end wraps around at `2^64`. -/
def InModule (addr : ℕ) (m : ModuleInfo) : Prop :=
  m.size ≠ 0 ∧ m.base ≤ addr ∧ addr < (m.base + m.size) % sizeModulus

instance (addr : ℕ) (m : ModuleInfo) : Decidable (InModule addr m) :=
  inferInstanceAs (Decidable (_ ∧ _ ∧ _))

/-- `best` after another module: the smaller one of those that contain the address. -/
def better (addr : ℕ) (best : Option ModuleInfo) (m : ModuleInfo) : Option ModuleInfo :=
  if InModule addr m then
    match best with
    | none => some m
    | some other => if m.size < other.size then some m else best
  else best

/-- The text behind the last slash. -/
def fileName (name : Text) : Text := (name.reverse.takeWhile fun c ↦ c ≠ '/').reverse

/-- The digits of `%llX`. -/
def hexUpper (value : ℕ) : Text := (hex value).map toUpperChar

def moduleOffsetString (modules : List ModuleInfo) (addr : ℕ) : Text :=
  match modules.foldl (better addr) none with
  | none => []
  | some best =>
    fileName (if best.name ≠ [] then best.name else best.path) ++
      '+' :: '0' :: 'x' :: hexUpper (addr - best.base)

/-! ### The module of an address -/

section Best

variable {modules : List ModuleInfo} {addr : ℕ}

theorem better_eq_some {best : Option ModuleInfo} {m chosen : ModuleInfo}
    (h : better addr best m = some chosen) :
    best = some chosen ∨ chosen = m ∧ InModule addr m := by
  unfold better at h
  split_ifs at h with hin
  · split at h
    · exact Or.inr ⟨(Option.some.inj h).symm, hin⟩
    · split_ifs at h
      · exact Or.inr ⟨(Option.some.inj h).symm, hin⟩
      · exact Or.inl h
  · exact Or.inl h

/-- The module that is chosen is one that contains the address. -/
theorem foldl_better_eq_some {start : Option ModuleInfo} {chosen : ModuleInfo}
    (h : modules.foldl (better addr) start = some chosen) :
    start = some chosen ∨ chosen ∈ modules ∧ InModule addr chosen := by
  induction modules generalizing start with
  | nil => exact Or.inl h
  | cons m modules ih =>
    rcases ih h with hfirst | ⟨hmem, hin⟩
    · rcases better_eq_some hfirst with hstart | ⟨rfl, hin⟩
      · exact Or.inl hstart
      · exact Or.inr ⟨List.mem_cons_self, hin⟩
    · exact Or.inr ⟨List.mem_cons_of_mem _ hmem, hin⟩

theorem better_isSome {best : Option ModuleInfo} {m : ModuleInfo}
    (h : best.isSome ∨ InModule addr m) : (better addr best m).isSome := by
  unfold better
  split_ifs with hin
  · split
    · rfl
    · split_ifs <;> rfl
  · exact h.resolve_right hin

theorem foldl_better_isSome {start : Option ModuleInfo}
    (h : start.isSome ∨ ∃ m ∈ modules, InModule addr m) :
    (modules.foldl (better addr) start).isSome := by
  induction modules generalizing start with
  | nil => simpa using h
  | cons m modules ih =>
    refine ih ?_
    rcases h with hstart | ⟨other, hother, hin⟩
    · exact Or.inl (better_isSome (Or.inl hstart))
    · rcases List.mem_cons.mp hother with rfl | hother
      · exact Or.inl (better_isSome (Or.inr hin))
      · exact Or.inr ⟨other, hother, hin⟩

end Best

theorem fileName_of_not_mem {name : Text} (h : '/' ∉ name) : fileName name = name := by
  have hall : ∀ c ∈ name.reverse, decide (c ≠ '/') = true := by
    intro c hc
    simp only [decide_eq_true_eq]
    rintro rfl
    exact h (List.mem_reverse.mp hc)
  rw [fileName, List.takeWhile_eq_self_iff.mpr hall, List.reverse_reverse]

/-- An address is written with a module that contains it, or not at all. -/
theorem moduleOffsetString_cases {modules : List ModuleInfo} {addr : ℕ}
    (hnames : ∀ m ∈ modules, m.name ≠ [] ∧ '/' ∉ m.name) :
    (∃ m ∈ modules, InModule addr m ∧
      moduleOffsetString modules addr = m.name ++ '+' :: '0' :: 'x' :: hexUpper (addr - m.base)) ∨
    (∀ m ∈ modules, ¬ InModule addr m) ∧ moduleOffsetString modules addr = [] := by
  rw [moduleOffsetString]
  cases hbest : modules.foldl (better addr) none with
  | none =>
    refine Or.inr ⟨fun m hm hin ↦ ?_, rfl⟩
    have hsome := @foldl_better_isSome modules addr none (Or.inr ⟨m, hm, hin⟩)
    rw [hbest] at hsome
    cases hsome
  | some best =>
    obtain ⟨hmem, hin⟩ := (foldl_better_eq_some hbest).resolve_left nofun
    obtain ⟨hne, hslash⟩ := hnames best hmem
    refine Or.inl ⟨best, hmem, hin, ?_⟩
    dsimp only
    rw [if_pos hne, fileName_of_not_mem hslash]

/-! ### The digits -/

theorem digitValue_toUpperChar {d : ℕ} (hd : d < 16) :
    digitValue (toUpperChar (Nat.digitChar d)) = some d := by
  interval_cases d <;> decide

theorem isHexDigit_of_mem_hexUpper {value : ℕ} {c : Char} (hc : c ∈ hexUpper value) :
    isHexDigit c = true := by
  obtain ⟨lower, hlower, rfl⟩ := List.mem_map.mp hc
  obtain ⟨d, hd, rfl⟩ := isNumeral_of_mem (by decide) (by decide) hlower
  rw [isHexDigit, digitValue_toUpperChar hd]
  simpa using hd

theorem hexUpper_ne_nil (value : ℕ) : hexUpper value ≠ [] := by
  simpa [hexUpper] using hex_ne_nil value

theorem digitsValue_hexUpper (value : ℕ) : digitsValue 16 (hexUpper value) = value := by
  have hdigit : ∀ c ∈ hex value, digitValue (toUpperChar c) = digitValue c := by
    intro c hc
    obtain ⟨d, hd, rfl⟩ := isNumeral_of_mem (by decide) (by decide) hc
    rw [digitValue_toUpperChar hd, digitValue_digitChar hd]
  have hfold : digitsValue 16 (hexUpper value) = digitsValue 16 (hex value) := by
    rw [digitsValue, digitsValue, hexUpper, List.foldl_map]
    exact List.foldl_ext _ _ _ fun sum c hc ↦ by rw [hdigit c hc]
  rw [hfold, digitsValue_hex]

/-! ### Reading the text -/

/-- A name that the parser takes for one: no blank at its ends, no bracket, and not read as a
number. -/
structure ReadAsName (name : Text) : Prop where
  solid : Solid name
  bracket : '[' ∉ name
  hash : name.head? ≠ some '#'
  prefixed : ¬(2 < name.length ∧ name.head? = some '0' ∧
    (name.tail.head? = some 'x' ∨ name.tail.head? = some 'X'))
  digits : ¬(name.all isHexDigit = true ∧ (2 ≤ name.length ∨ name.all isDigit = true))

namespace ExpressionParser

/-- The name of the module cuts a term off the front of the text. -/
def Cuts (s : Text) (m : ModuleInfo) : Prop :=
  m.name.isPrefixOf s = true ∧ endsTerm (s.drop m.name.length) = true

/-- `modLen` after another module. -/
def longer (s : Text) (modLen : ℕ) (m : ModuleInfo) : ℕ :=
  if m.name.length ≤ modLen then modLen
  else if m.name.isPrefixOf s ∧ endsTerm (s.drop m.name.length) then m.name.length
  else modLen

theorem longer_cases (s : Text) (modLen : ℕ) (m : ModuleInfo) :
    modLen ≤ longer s modLen m ∧ (Cuts s m → m.name.length ≤ longer s modLen m) ∧
      (longer s modLen m = modLen ∨ Cuts s m ∧ longer s modLen m = m.name.length) := by
  unfold longer
  split_ifs with hlength hcuts
  · exact ⟨le_rfl, fun _ ↦ hlength, Or.inl rfl⟩
  · exact ⟨by omega, fun _ ↦ le_rfl, Or.inr ⟨hcuts, rfl⟩⟩
  · exact ⟨le_rfl, fun h ↦ absurd h hcuts, Or.inl rfl⟩

/-- The longest name that cuts a term off: at least as long as each that does, and one of them. -/
theorem foldl_longer (mods : List ModuleInfo) (s : Text) (modLen : ℕ) :
    modLen ≤ mods.foldl (longer s) modLen ∧
      (∀ m ∈ mods, Cuts s m → m.name.length ≤ mods.foldl (longer s) modLen) ∧
      (mods.foldl (longer s) modLen = modLen ∨
        ∃ m ∈ mods, Cuts s m ∧ mods.foldl (longer s) modLen = m.name.length) := by
  induction mods generalizing modLen with
  | nil => exact ⟨le_rfl, fun m hm ↦ absurd hm List.not_mem_nil, Or.inl rfl⟩
  | cons m mods ih =>
    obtain ⟨hstep, hlong, hone⟩ := longer_cases s modLen m
    obtain ⟨hle, hall, hlast⟩ := ih (longer s modLen m)
    rw [List.foldl_cons]
    refine ⟨hstep.trans hle, ?_, ?_⟩
    · intro other hother hcuts
      rcases List.mem_cons.mp hother with rfl | hother
      · exact (hlong hcuts).trans hle
      · exact hall other hother hcuts
    · rcases hlast with hlast | ⟨other, hother, hcuts, hlength⟩
      · rw [hlast]
        rcases hone with hone | ⟨hcuts, hlength⟩
        · exact Or.inl hone
        · exact Or.inr ⟨m, List.mem_cons_self, hcuts, hlength⟩
      · exact Or.inr ⟨other, List.mem_cons_of_mem _ hother, hcuts, hlength⟩

/-- The length of a name that is the longest to cut a term off. -/
theorem moduleLength_of_longest {mods : List ModuleInfo} {s : Text} {m : ModuleInfo} (hm : m ∈ mods)
    (hcuts : Cuts s m) (hlongest : ∀ n ∈ mods, Cuts s n → n.name.length ≤ m.name.length) :
    moduleLength mods s = m.name.length := by
  obtain ⟨-, hall, hone⟩ := foldl_longer mods s 0
  have hlow := hall m hm hcuts
  change mods.foldl (longer s) 0 = m.name.length
  rcases hone with hzero | ⟨n, hn, hncuts, hlength⟩
  · omega
  · have hhigh := hlongest n hn hncuts
    omega

/-- A text without operators and brackets is one term, whichever modules there are. -/
theorem nextTerm_flat (mods : List ModuleInfo) (atStart : Bool) {s : Text} (hs : s ≠ [])
    (hopen : '[' ∉ s) (hclose : ']' ∉ s) (hop : s.any isOperator = false) :
    nextTerm mods atStart s = (s, []) := by
  obtain ⟨-, -, hone⟩ := foldl_longer mods s 0
  unfold nextTerm
  dsimp only
  split_ifs with hlength
  · rcases hone with hzero | ⟨m, hm, ⟨hstart, hend⟩, hone⟩
    · exact absurd hzero (Nat.ne_of_gt hlength)
    · have hcovers : s.drop m.name.length = [] := by
        unfold endsTerm at hend
        cases hdrop : s.drop m.name.length with
        | nil => rfl
        | cons c rest =>
          have hmem : c ∈ s := List.mem_of_mem_drop (hdrop ▸ List.mem_cons_self)
          have hplain : isOperator c = false := by
            simpa using List.any_eq_false.mp hop c hmem
          rw [hdrop] at hend
          simp [hplain] at hend
      have hall : moduleLength mods s = m.name.length := hone
      have htake := List.take_append_drop m.name.length s
      rw [hcovers, List.append_nil] at htake
      rw [hall, hcovers, htake]
  · cases s with
    | nil => exact absurd rfl hs
    | cons c rest =>
      rw [List.mem_cons, not_or] at hopen hclose
      rw [List.any_cons, Bool.or_eq_false_iff] at hop
      have hscan := scanTerm_cut hopen.2 hclose.2 hop.2 (!atStart) c (Or.inl rfl)
        (fun hne ↦ absurd rfl hne)
      rw [List.append_nil] at hscan
      dsimp only
      rw [if_neg (Ne.symm hopen.1), hscan]

/-- The address of a module whose name no other module has and no symbol. -/
theorem nameAddress_module {parser : ExpressionParser} {m : ModuleInfo}
    (hnames : (parser.modules.map ModuleInfo.name).Nodup) (hm : m ∈ parser.modules)
    (hsymbol : ∀ lookup, parser.resolver = some lookup → lookup m.name = 0) :
    parser.nameAddress m.name = some m.base := by
  have hnone : (parser.resolver.bind fun lookup ↦
      if lookup m.name = 0 then none else some (lookup m.name)) = none := by
    cases hresolver : parser.resolver with
    | none => rfl
    | some lookup => exact if_pos (hsymbol lookup hresolver)
  have hfind : (parser.modules.find? fun n ↦ n.name = m.name) = some m := by
    cases hfound : parser.modules.find? fun n ↦ n.name = m.name with
    | none => simpa using List.find?_eq_none.mp hfound m hm
    | some n =>
      have hname : n.name = m.name := by simpa using List.find?_some hfound
      exact congrArg some
        (List.inj_on_of_nodup_map hnames (List.mem_of_find?_eq_some hfound) hm hname)
  rw [nameAddress, hnone, hfind]
  rfl

end ExpressionParser

/-- A name in front of an offset is the longest that cuts a term off, if no module has the whole
text for its name. -/
theorem moduleLength_name {mods : List ModuleInfo} {m : ModuleInfo} {digits : Text} (hm : m ∈ mods)
    (hdigits : ∀ c ∈ digits, isHexDigit c = true)
    (hother : ∀ n ∈ mods, n.name ≠ m.name ++ '+' :: '0' :: 'x' :: digits) :
    ExpressionParser.moduleLength mods (m.name ++ '+' :: '0' :: 'x' :: digits) = m.name.length := by
  refine ExpressionParser.moduleLength_of_longest hm ⟨?_, ?_⟩ fun n hn hcuts ↦ ?_
  · exact List.isPrefixOf_iff_prefix.mpr (List.prefix_append _ _)
  · rw [List.drop_left]
    rfl
  · obtain ⟨hstart, hend⟩ := hcuts
    obtain ⟨rest, hrest⟩ := List.isPrefixOf_iff_prefix.mp hstart
    by_contra hlong
    have hdrop : rest = (m.name ++ '+' :: '0' :: 'x' :: digits).drop n.name.length := by
      rw [← hrest, List.drop_left]
    rw [← hrest, List.drop_left] at hend
    cases rest with
    | nil =>
      rw [List.append_nil] at hrest
      exact hother n hn hrest
    | cons c rest =>
      obtain ⟨beyond, hbeyond⟩ : ∃ k, n.name.length = m.name.length + (k + 1) :=
        ⟨n.name.length - m.name.length - 1, by omega⟩
      have hdigit : c ∈ '0' :: 'x' :: digits := by
        rw [hbeyond, List.drop_append, Nat.add_sub_cancel_left,
          List.drop_eq_nil_of_le (Nat.le_add_right _ _), List.nil_append,
          List.drop_succ_cons] at hdrop
        exact List.mem_of_mem_drop (hdrop ▸ List.mem_cons_self)
      have hop : isOperator c = true := by simpa [ExpressionParser.endsTerm] using hend
      have hplain : isOperator c = false := by
        rcases List.mem_cons.mp hdigit with rfl | hdigit
        · rfl
        rcases List.mem_cons.mp hdigit with rfl | hdigit
        · rfl
        · obtain ⟨-, -, -, -, -, hdigitOp, -⟩ := isHexDigit_cases (hdigits c hdigit)
          exact hdigitOp
      rw [hplain] at hop
      cases hop

section Reading

variable {proc : Process} {resolver : Option (Text → ℕ)} {m : ModuleInfo} {value : ℕ}

/-- The offset behind the operator, as a term of its own. -/
theorem sumFrom_offset {parser : ExpressionParser} (parseImpl : Text → Option ℕ) (turns : ℕ)
    (result : ℕ) (hvalue : value < sizeModulus) :
    parser.sumFrom parseImpl (turns + 1) false result false ('0' :: 'x' :: hexUpper value) =
      (result + value) % sizeModulus := by
  have hwf : (Atom.prefixed 'x' (hexUpper value)).WellFormed parser :=
    ⟨Or.inl rfl, hexUpper_ne_nil value,
      List.all_eq_true.mpr fun c hc ↦ isHexDigit_of_mem_hexUpper hc⟩
  have hfits : (Atom.prefixed 'x' (hexUpper value)).Fits := by
    change digitsValue 16 (hexUpper value) < sizeModulus
    rwa [digitsValue_hexUpper]
  have hspells : (Atom.prefixed 'x' (hexUpper value)).value parser = some value :=
    congrArg some (digitsValue_hexUpper value)
  obtain ⟨hsolid, hopen, hclose⟩ := Atom.text_solid hwf
  have hop : ('0' :: 'x' :: hexUpper value).any isOperator = false := by
    refine List.any_eq_false.mpr fun c hc ↦ ?_
    rcases List.mem_cons.mp hc with rfl | hc
    · decide
    rcases List.mem_cons.mp hc with rfl | hc
    · decide
    · obtain ⟨-, -, -, -, -, hdigit, -⟩ := isHexDigit_cases (isHexDigit_of_mem_hexUpper hc)
      simp [hdigit]
  have hterm := ExpressionParser.nextTerm_flat parser.modules false hsolid.ne_nil hopen hclose hop
  rw [← List.append_nil (Atom.text _)] at hterm
  have hturn := @ExpressionParser.sumFrom_last parser parseImpl turns false result false [] _ [] _
    rfl rfl hsolid hsolid.ne_nil (by rw [List.append_nil] at hterm ⊢; exact hterm)
  rw [termValue_atom hwf hfits hspells parseImpl] at hturn
  exact hturn

/-- The name and the offset are read back. -/
theorem parse_name_offset {parser : ExpressionParser}
    (hnames : (parser.modules.map ModuleInfo.name).Nodup) (hm : m ∈ parser.modules)
    (hname : ReadAsName m.name)
    (hsymbol : ∀ lookup, parser.resolver = some lookup → lookup m.name = 0)
    (hother : ∀ n ∈ parser.modules, n.name ≠ m.name ++ '+' :: '0' :: 'x' :: hexUpper value)
    (hvalue : m.base + value < sizeModulus) :
    parser.parse (m.name ++ '+' :: '0' :: 'x' :: hexUpper value) = some (m.base + value) := by
  have hdigits : ∀ c ∈ hexUpper value, isHexDigit c = true := fun c hc ↦
    isHexDigit_of_mem_hexUpper hc
  have hlength := moduleLength_name hm hdigits hother
  obtain ⟨c, hc, hblank⟩ := hname.solid.head
  generalize hs : m.name ++ '+' :: '0' :: 'x' :: hexUpper value = s at hlength
  have hhead : s.head? = some c := by
    rw [← hs, List.head?_append, hc]
    rfl
  have hsolid : Solid s := by
    have hdigit := List.getLast_mem (hexUpper_ne_nil value)
    obtain ⟨-, -, -, hdigitBlank, -⟩ := isHexDigit_cases (hdigits _ hdigit)
    refine ⟨⟨c, hhead, hblank⟩, _, ?_, hdigitBlank⟩
    have hsplit : s = (m.name ++ ['+', '0', 'x']) ++ hexUpper value := by
      rw [← hs, List.append_assoc]
      rfl
    rw [hsplit, List.getLast?_append, List.getLast?_eq_some_getLast (hexUpper_ne_nil value),
      Option.some_or]
  have hne : s ≠ [] := hsolid.ne_nil
  have hterm : ExpressionParser.nextTerm parser.modules true s =
      ([] ++ (m.name ++ []), operator false :: '0' :: 'x' :: hexUpper value) := by
    have hpos := List.length_pos_iff.mpr hname.solid.ne_nil
    unfold ExpressionParser.nextTerm
    dsimp only
    rw [hlength, if_pos hpos, ← hs, List.take_left, List.drop_left, List.append_nil]
    rfl
  have hvalueOf : ∀ parseImpl, parser.termValue parseImpl m.name = m.base := by
    intro parseImpl
    rw [ExpressionParser.termValue, if_neg hname.bracket]
    exact resolveToken_name hname.solid.ne_nil hname.hash hname.prefixed hname.digits
      (ExpressionParser.nameAddress_module hnames hm hsymbol)
  obtain ⟨turns, hturns⟩ : ∃ k, s.length = k + 1 + 1 := ⟨s.length - 2, by
    rw [← hs, List.length_append]
    simp only [List.length_cons]
    omega⟩
  have hbracket : ∀ rest, s ≠ '[' :: rest := by
    rintro rest rfl
    obtain rfl : '[' = c := Option.some.inj hhead
    exact hname.bracket (List.mem_of_mem_head? hc)
  rw [ExpressionParser.parse, ExpressionParser.parseImpl, trim_solid hsolid]
  split
  · next heq => exact absurd rfl hne
  · next rest => exact absurd rfl (hbracket rest)
  · rw [hturns, ExpressionParser.sumFrom_more [] rfl rfl hname.solid hne hterm, hvalueOf,
      sumFrom_offset _ _ _ (by omega)]
    have hbase : ExpressionParser.accumulate 0 false m.base = m.base := by
      change (0 + m.base) % sizeModulus = m.base
      rw [Nat.zero_add, Nat.mod_eq_of_lt (by omega)]
    rw [hbase, Nat.mod_eq_of_lt hvalue]

end Reading

/-- An address inside a module is written so that the parser finds it again, if the parser takes
the name of the module for a name, knows no symbol under it and no module is named like the whole
text. Other addresses are not written. -/
theorem parse_moduleOffsetString (proc : Process) (resolver : Option (Text → ℕ)) (address : ℕ)
    (hnames : (proc.modules.map ModuleInfo.name).Nodup)
    (hplain : ∀ m ∈ proc.modules, m.name ≠ [] ∧ '/' ∉ m.name)
    (hends : ∀ m ∈ proc.modules, m.base + m.size < sizeModulus)
    (hread : ∀ m ∈ proc.modules, m.base ≤ address ∧ address < m.base + m.size →
      ReadAsName m.name ∧ ∀ lookup, resolver = some lookup → lookup m.name = 0)
    (hother : ∀ m ∈ proc.modules, m.name ≠ moduleOffsetString proc.modules address) :
    ((∃ m ∈ proc.modules, m.base ≤ address ∧ address < m.base + m.size) →
      (ExpressionParser.mk (some proc) resolver).parse (moduleOffsetString proc.modules address) =
        some address) ∧
    ((∀ m ∈ proc.modules, ¬(m.base ≤ address ∧ address < m.base + m.size)) →
      moduleOffsetString proc.modules address = [] ∧
        (ExpressionParser.mk (some proc) resolver).parse [] = none) := by
  have hinside : ∀ m ∈ proc.modules,
      (InModule address m ↔ m.base ≤ address ∧ address < m.base + m.size) := by
    intro m hm
    rw [InModule, Nat.mod_eq_of_lt (hends m hm)]
    omega
  rcases moduleOffsetString_cases hplain with ⟨m, hm, hin, htext⟩ | ⟨hnone, htext⟩
  · have hrange := (hinside m hm).mp hin
    obtain ⟨hname, hsymbol⟩ := hread m hm hrange
    refine ⟨fun _ ↦ ?_, fun hall ↦ absurd hrange (hall m hm)⟩
    have hend := hends m hm
    have hback : m.base + (address - m.base) = address := by omega
    rw [htext] at hother ⊢
    have hparse := @parse_name_offset m (address - m.base) ⟨some proc, resolver⟩ hnames hm hname
      hsymbol hother (by omega)
    rwa [hback] at hparse
  · refine ⟨fun ⟨m, hm, hrange⟩ ↦ absurd ((hinside m hm).mpr hrange) (hnone m hm), fun _ ↦ ?_⟩
    exact ⟨htext, rfl⟩

/-- A process with some modules and no memory. -/
def bareProcess (modules : List ModuleInfo) : Process where
  modules := modules
  handle := {
    memory := fun _ ↦ none
    queryRegions := []
    pagemap := fun _ ↦ none
    supportsConcurrentReads := true }

def sampleModules : List ModuleInfo :=
  [⟨0x400000, 0x10000, "libssl-1.1.so".toList, []⟩, ⟨0x7f0000, 0x2000, "c".toList, []⟩]

/-- `libssl-1.1.so+0x123A`. -/
theorem parse_moduleOffsetString_hyphen :
    (ExpressionParser.mk (some (bareProcess sampleModules)) none).parse
      "libssl-1.1.so+0x123A".toList = some 0x40123a := by
  have htext : moduleOffsetString sampleModules 0x40123a = "libssl-1.1.so+0x123A".toList := by
    decide
  have hread := (parse_moduleOffsetString (bareProcess sampleModules) none 0x40123a
    (by decide) (by decide) (by decide) ?_ (by decide)).1
    ⟨⟨0x400000, 0x10000, "libssl-1.1.so".toList, []⟩, List.mem_cons_self, by decide⟩
  · rw [← htext]
    exact hread
  · intro m hm hrange
    refine ⟨?_, nofun⟩
    rcases List.mem_cons.mp hm with rfl | hm
    · exact ⟨⟨⟨_, rfl, rfl⟩, ⟨_, rfl, rfl⟩⟩, by decide, by decide, by decide, by decide⟩
    · obtain rfl := List.mem_singleton.mp hm
      exact absurd hrange (by decide)

/-- What the parser finds where an address of a process is written. -/
def reread (modules : List ModuleInfo) (address : ℕ) : Option ℕ :=
  (ExpressionParser.mk (some (bareProcess modules)) none).parse (moduleOffsetString modules address)

/-- A name that is a number, one with a bracket, one with a blank in front, another module named
like the whole text, and an address outside every module. -/
theorem reread_differs :
    reread [⟨0x400000, 0x1000, "cafe".toList, []⟩] 0x400010 = some 0xcb0e ∧
    reread [⟨0x400000, 0x1000, "a[b".toList, []⟩] 0x400010 = some 0x10 ∧
    reread [⟨0x400000, 0x1000, " game".toList, []⟩] 0x400010 = some 0x10 ∧
    reread [⟨0x400000, 0x1000, "game".toList, []⟩, ⟨0x7f0000, 0x1000, "game+0x10".toList, []⟩]
      0x400010 = some 0x7f0000 ∧
    reread [⟨0x400000, 0x1000, "game".toList, []⟩] 0x300000 = none := by
  decide +kernel

end Cecore.Expression
