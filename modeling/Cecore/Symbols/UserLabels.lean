import Cecore.Symbols.SymbolResolver

/-!
# Labels in the index by name

The index by name of a `SymbolResolver` should lead to a label of the user where there is one of the
name, and otherwise to the first symbol of the name. Loading a module keeps that. The other calls
keep it exactly if no name is dropped that another label or a symbol still has, and none is kept
that its address has lost (`indexed_call_iff`); over whole sequences of calls, `labels_resolve_iff`.
-/

set_option autoImplicit false
set_option relaxedAutoImplicit false

namespace Cecore.Symbols

namespace SymbolResolver

/-- The address of the first symbol of a name. -/
def firstSymbol (symbols : List Symbol) (name : Text) : Option ℕ :=
  (symbols.find? fun symbol ↦ decide (symbol.key = name)).map Symbol.address

/-- Some address is labelled with the name. -/
def Labelled (s : SymbolResolver) (name : Text) : Prop := ∃ a, s.userSymbols a = some name

/-- What a name should lead to. -/
structure Leads (s : SymbolResolver) (name : Text) (found : Option ℕ) : Prop where
  label : s.Labelled name → ∃ a, found = some a ∧ s.userSymbols a = some name
  symbol : ¬s.Labelled name → found = firstSymbol s.symbols name

/-- The index by name leads to labels, and otherwise to symbols. -/
def Indexed (s : SymbolResolver) : Prop := ∀ name, s.Leads name (s.nameIndex name)

/-- `lookup` gives a current label of the name, otherwise the first symbol, otherwise zero. -/
structure Resolves (s : SymbolResolver) (name : Text) : Prop where
  label : s.Labelled name → s.userSymbols (s.lookup name) = some name
  symbol : ¬s.Labelled name → s.lookup name = (firstSymbol s.symbols name).getD 0

/-- A call that leaves no name behind and drops none that is still needed. -/
def Fits (files : SymbolFiles) (s : SymbolResolver) : SymbolCall → Prop
  | .addUserSymbol address name => ∀ old, s.userSymbols address = some old → old ≠ name →
      s.nameIndex old = some address → (∀ other, other ≠ address → s.userSymbols other ≠ some old) ∧
        firstSymbol s.symbols old = some address
  | .removeUserSymbol address => ∀ name, s.userSymbols address = some name →
      (∀ other, other ≠ address → s.userSymbols other ≠ some name) ∧ firstSymbol s.symbols name = none
  | .loadModule _ _ _ => True
  | .loadProcess modules => ∀ address name, s.userSymbols address = some name →
      ∃ a, firstSymbol (s.loadProcess files modules).symbols name = some a ∧ s.userSymbols a = some name
  | .clear => ∀ address, s.userSymbols address = none

variable {s s' : SymbolResolver} {files : SymbolFiles} {name : Text} {symbol : Symbol}

theorem Indexed.resolves (h : s.Indexed) (name : Text) : s.Resolves name where
  label := fun hlabelled ↦ by
    obtain ⟨a, hfound, ha⟩ := (h name).label hlabelled
    rwa [lookup, hfound]
  symbol := fun hunlabelled ↦ by
    rw [lookup, (h name).symbol hunlabelled]

/-! ### Loading -/

theorem firstSymbol_append (symbols : List Symbol) (symbol : Symbol) (name : Text) :
    firstSymbol (symbols ++ [symbol]) name =
      (firstSymbol symbols name).or (if symbol.key = name then some symbol.address else none) := by
  unfold firstSymbol
  rw [List.find?_append]
  cases symbols.find? fun other ↦ decide (other.key = name) with
  | some found => rfl
  | none =>
    rw [Option.none_or, List.find?_singleton, Option.map_none, Option.none_or]
    by_cases hkey : symbol.key = name
    · rw [if_pos hkey, if_pos (decide_eq_true hkey)]
      rfl
    · rw [if_neg hkey, if_neg fun htrue ↦ hkey (of_decide_eq_true htrue)]
      rfl

/-- The index after a push leads to the same place, or to the symbol where it led nowhere. -/
theorem nameIndex_push (symbol : Symbol) (s : SymbolResolver) (name : Text) :
    (s.push symbol).nameIndex name =
      (s.nameIndex name).or (if symbol.key = name then some symbol.address else none) := by
  unfold push
  dsimp only
  by_cases hkey : symbol.key = name
  · subst hkey
    rw [if_pos rfl]
    cases hfound : s.nameIndex symbol.key with
    | some a => rw [Option.isSome_some, if_pos rfl, hfound, Option.some_or]
    | none => rw [Option.isSome_none, if_neg Bool.false_ne_true, Function.update_self, Option.none_or]
  · rw [if_neg hkey, Option.or_none]
    split_ifs with hknown
    · rfl
    · rw [Function.update_of_ne (Ne.symm hkey)]

theorem Indexed.push (h : s.Indexed) (symbol : Symbol) : (s.push symbol).Indexed := by
  intro name
  have hsymbols : (s.push symbol).symbols = s.symbols ++ [symbol] := rfl
  constructor
  · intro hlabelled
    obtain ⟨a, hfound, ha⟩ := (h name).label hlabelled
    refine ⟨a, ?_, ha⟩
    rw [nameIndex_push, hfound, Option.some_or]
  · intro hunlabelled
    rw [nameIndex_push, hsymbols, firstSymbol_append, (h name).symbol hunlabelled]

/-- A resolver from which the other one is made by pushes. -/
inductive Pushed (s : SymbolResolver) : SymbolResolver → Prop
  | refl : Pushed s s
  | push {s' : SymbolResolver} (symbol : Symbol) : Pushed s s' → Pushed s (s'.push symbol)

theorem Pushed.trans {s'' : SymbolResolver} (h : Pushed s s') (h' : Pushed s' s'') : Pushed s s'' := by
  induction h' with
  | refl => exact h
  | push symbol _ ih => exact .push symbol ih

theorem Pushed.pushNew (h : Pushed s s') (symbol : Symbol) : Pushed s (s'.pushNew symbol) := by
  unfold SymbolResolver.pushNew
  split_ifs
  · exact h
  · exact .push symbol h

theorem pushed_foldl {α : Type} {f : SymbolResolver → α → SymbolResolver}
    (hf : ∀ s item, Pushed s (f s item)) (items : List α) (s : SymbolResolver) :
    Pushed s (items.foldl f s) := by
  induction items generalizing s with
  | nil => exact .refl
  | cons item rest ih => exact (hf s item).trans (ih (f s item))

theorem pushed_processSymtabs (files : SymbolFiles) (image : ElfImage) (moduleName : Text)
    (baseAddr : ℕ) (s : SymbolResolver) :
    Pushed s (processSymtabs files image moduleName baseAddr s) := by
  refine pushed_foldl (fun s symtab ↦ ?_) _ _
  unfold processSymtab
  split_ifs
  · refine pushed_foldl (fun s sym ↦ ?_) _ _
    split_ifs
    · exact .refl
    · exact .refl
    · exact .refl
    · exact .push _ .refl
  · exact .refl

theorem pushed_processRelocations (files : SymbolFiles) (image : ElfImage) (moduleName : Text)
    (baseAddr : ℕ) (s : SymbolResolver) :
    Pushed s (processRelocations files image moduleName baseAddr s) := by
  refine pushed_foldl (fun s rel ↦ ?_) _ _
  split
  · exact .refl
  · exact .refl
  · exact Pushed.refl.pushNew _

theorem pushed_processPlt (files : SymbolFiles) (image : ElfImage) (moduleName : Text) (baseAddr : ℕ)
    (s : SymbolResolver) : Pushed s (processPlt files image moduleName baseAddr s) := by
  refine pushed_foldl (fun s entry ↦ ?_) _ _
  split
  · exact .refl
  · exact Pushed.refl.pushNew _

theorem pushed_parseImage {debug : Text → SymbolResolver → SymbolResolver}
    (hdebug : ∀ dbg s, Pushed s (debug dbg s)) (file : Option ModuleFile) (moduleName : Text)
    (baseAddr : ℕ) (s : SymbolResolver) :
    Pushed s (parseImage files debug file moduleName baseAddr s) := by
  unfold parseImage
  split
  · next image =>
    refine Pushed.trans ?_ (pushed_processPlt _ _ _ _ _)
    refine Pushed.trans ?_ (pushed_processRelocations _ _ _ _ _)
    refine (pushed_processSymtabs files image moduleName baseAddr s).trans ?_
    split_ifs
    · exact .refl
    · cases image.separateDebug with
      | none => exact .refl
      | some dbg => exact hdebug dbg _
  · exact pushed_processSymtabs _ _ _ _ _
  · exact .refl
  · exact .refl
  · exact .refl

theorem pushed_parseElfSymbols (files : SymbolFiles) (path moduleName : Text) (baseAddr : ℕ)
    (s : SymbolResolver) : Pushed s (parseElfSymbols files path moduleName baseAddr s) := by
  refine pushed_parseImage (fun dbg s ↦ ?_) _ _ _ _
  split_ifs
  · exact .refl
  · exact pushed_parseImage (fun _ _ ↦ .refl) _ _ _ _

theorem pushed_loadModule (files : SymbolFiles) (path moduleName : Text) (baseAddr : ℕ)
    (s : SymbolResolver) : Pushed s (s.loadModule files path moduleName baseAddr) := by
  unfold loadModule
  split
  · refine pushed_foldl (fun s e ↦ ?_) _ _
    split_ifs
    · exact .refl
    · exact Pushed.refl.pushNew _
  · exact pushed_parseElfSymbols _ _ _ _ _

theorem pushed_loadProcess (files : SymbolFiles) (modules : List ModuleInfo) (s : SymbolResolver) :
    Pushed s.clear (s.loadProcess files modules) := by
  refine pushed_foldl (fun s m ↦ ?_) _ _
  split_ifs
  · exact .refl
  · exact pushed_parseElfSymbols _ _ _ _ _

theorem Pushed.indexed (hpushed : Pushed s s') (h : s.Indexed) : s'.Indexed := by
  induction hpushed with
  | refl => exact h
  | push symbol _ ih => exact ih.push symbol

theorem Pushed.userSymbols (hpushed : Pushed s s') : s'.userSymbols = s.userSymbols := by
  induction hpushed with
  | refl => rfl
  | push _ _ ih => exact ih

/-- After a clear the index knows the symbols that have been loaded since, and no labels. -/
theorem Pushed.nameIndex (hpushed : Pushed s.clear s') (name : Text) :
    s'.nameIndex name = firstSymbol s'.symbols name := by
  induction hpushed with
  | refl => rfl
  | @push s' symbol _ ih =>
    have hsymbols : (s'.push symbol).symbols = s'.symbols ++ [symbol] := rfl
    rw [nameIndex_push, hsymbols, firstSymbol_append, ih]

/-- So a label is found only if a symbol of its name is at a label of the name. -/
theorem indexed_cleared_iff (hpushed : Pushed s.clear s') :
    s'.Indexed ↔ ∀ address name, s.userSymbols address = some name →
      ∃ a, firstSymbol s'.symbols name = some a ∧ s.userSymbols a = some name := by
  have hlabels : s'.userSymbols = s.userSymbols := hpushed.userSymbols
  constructor
  · intro h address name haddress
    obtain ⟨a, hfound, ha⟩ := (h name).label ⟨address, hlabels ▸ haddress⟩
    exact ⟨a, (hpushed.nameIndex name).symm.trans hfound, hlabels ▸ ha⟩
  · intro h name
    refine ⟨fun ⟨address, haddress⟩ ↦ ?_, fun _ ↦ hpushed.nameIndex name⟩
    obtain ⟨a, hfound, ha⟩ := h address name (hlabels ▸ haddress)
    exact ⟨a, (hpushed.nameIndex name).trans hfound, hlabels ▸ ha⟩

/-! ### Labels -/

theorem update_eq_some {labels : ℕ → Option Text} {address other : ℕ} {value : Option Text}
    (hvalue : value ≠ some name) :
    Function.update labels address value other = some name ↔
      other ≠ address ∧ labels other = some name := by
  by_cases heq : other = address
  · rw [heq, Function.update_self]
    exact iff_of_false hvalue fun hfalse ↦ hfalse.1 rfl
  · rw [Function.update_of_ne heq]
    exact (and_iff_right heq).symm

/-- A name whose label is not touched leads where it did. -/
theorem Leads.of_untouched {address : ℕ} (h : s.Leads name (s.nameIndex name))
    (hsymbols : s'.symbols = s.symbols) (hindex : s'.nameIndex name = s.nameIndex name)
    (hlabels : ∀ other, s'.userSymbols other = some name ↔
      other ≠ address ∧ s.userSymbols other = some name)
    (hother : s.userSymbols address ≠ some name) : s'.Leads name (s'.nameIndex name) := by
  have hsame : ∀ other, s'.userSymbols other = some name ↔ s.userSymbols other = some name := by
    intro other
    refine (hlabels other).trans (and_iff_right_of_imp fun hlabel heq ↦ ?_)
    exact hother (heq ▸ hlabel)
  have hlabelled : s'.Labelled name ↔ s.Labelled name := exists_congr hsame
  rw [hindex]
  refine ⟨fun hl ↦ ?_, fun hl ↦ ?_⟩
  · obtain ⟨a, hfound, ha⟩ := h.label (hlabelled.mp hl)
    exact ⟨a, hfound, (hsame a).mpr ha⟩
  · rw [hsymbols]
    exact h.symbol fun hfalse ↦ hl (hlabelled.mpr hfalse)

/-- A new label leaves the index right exactly if the old one of the address is not left behind. -/
theorem indexed_addUserSymbol_iff (h : s.Indexed) (address : ℕ) (name : Text) :
    (s.addUserSymbol address name).Indexed ↔ Fits files s (.addUserSymbol address name) := by
  have hlabels : ∀ old, old ≠ name → ∀ other,
      (s.addUserSymbol address name).userSymbols other = some old ↔
        other ≠ address ∧ s.userSymbols other = some old := by
    intro old hold other
    exact update_eq_some fun hfalse ↦ hold (Option.some.inj hfalse).symm
  have hindex : ∀ old, old ≠ name → (s.addUserSymbol address name).nameIndex old = s.nameIndex old :=
    fun old hold ↦ Function.update_of_ne hold _ _
  constructor
  · intro hnew old hlabel hold hfound
    have hleads := hnew old
    rw [hindex old hold, hfound] at hleads
    have hnone : ¬(s.addUserSymbol address name).Labelled old := by
      intro hlabelled
      obtain ⟨a, ha, hl⟩ := hleads.label hlabelled
      exact ((hlabels old hold a).mp hl).1 (Option.some.inj ha).symm
    refine ⟨fun other hother hl ↦ hnone ⟨other, (hlabels old hold other).mpr ⟨hother, hl⟩⟩, ?_⟩
    exact (hleads.symbol hnone).symm
  · intro hfits old
    by_cases hold : old = name
    · subst hold
      refine ⟨fun _ ↦ ⟨address, ?_, ?_⟩, fun hnone ↦ absurd ⟨address, ?_⟩ hnone⟩
      · exact Function.update_self _ _ _
      · exact Function.update_self _ _ _
      · exact Function.update_self _ _ _
    · by_cases hlabel : s.userSymbols address = some old
      · obtain ⟨a, hfound, ha⟩ := (h old).label ⟨address, hlabel⟩
        rw [hindex old hold, hfound]
        by_cases heq : a = address
        · subst heq
          obtain ⟨hothers, hfirst⟩ := hfits old hlabel hold hfound
          refine ⟨fun ⟨other, hl⟩ ↦ ?_, fun _ ↦ hfirst.symm⟩
          obtain ⟨hother, hl'⟩ := (hlabels old hold other).mp hl
          exact absurd hl' (hothers other hother)
        · have hstill := (hlabels old hold a).mpr ⟨heq, ha⟩
          exact ⟨fun _ ↦ ⟨a, rfl, hstill⟩, fun hnone ↦ absurd ⟨a, hstill⟩ hnone⟩
      · exact (h old).of_untouched rfl (hindex old hold) (hlabels old hold) hlabel

/-- A label can be removed exactly if nothing else has its name. -/
theorem indexed_removeUserSymbol_iff (h : s.Indexed) (address : ℕ) :
    (s.removeUserSymbol address).Indexed ↔ Fits files s (.removeUserSymbol address) := by
  cases hlabel : s.userSymbols address with
  | none =>
    have hsame : s.removeUserSymbol address = s := by
      rw [removeUserSymbol, hlabel]
    rw [hsame]
    refine iff_of_true h fun name hname ↦ ?_
    cases hlabel.symm.trans hname
  | some name =>
    have hresult : s.removeUserSymbol address =
        { s with
          nameIndex := Function.update s.nameIndex name none
          userSymbols := Function.update s.userSymbols address none } := by
      rw [removeUserSymbol, hlabel]
    have hlabels : ∀ old other, (s.removeUserSymbol address).userSymbols other = some old ↔
        other ≠ address ∧ s.userSymbols other = some old := by
      intro old other
      rw [hresult]
      exact update_eq_some fun hfalse ↦ nomatch hfalse
    have hgone : (s.removeUserSymbol address).nameIndex name = none := by
      rw [hresult]
      exact Function.update_self _ _ _
    have hsymbols : (s.removeUserSymbol address).symbols = s.symbols := by
      rw [hresult]
    constructor
    · intro hnew found hfound
      obtain rfl := Option.some.inj (hlabel.symm.trans hfound)
      have hleads := hnew name
      rw [hgone] at hleads
      have hnone : ¬(s.removeUserSymbol address).Labelled name := by
        intro hlabelled
        obtain ⟨a, ha, -⟩ := hleads.label hlabelled
        cases ha
      refine ⟨fun other hother hl ↦ hnone ⟨other, (hlabels name other).mpr ⟨hother, hl⟩⟩, ?_⟩
      rw [← hsymbols]
      exact (hleads.symbol hnone).symm
    · intro hfits old
      by_cases hold : old = name
      · subst hold
        obtain ⟨hothers, hfirst⟩ := hfits old hlabel
        rw [hgone]
        refine ⟨fun ⟨other, hl⟩ ↦ ?_, fun _ ↦ ?_⟩
        · obtain ⟨hother, hl'⟩ := (hlabels old other).mp hl
          exact absurd hl' (hothers other hother)
        · rw [hsymbols]
          exact hfirst.symm
      · have hindex : (s.removeUserSymbol address).nameIndex old = s.nameIndex old := by
          rw [hresult]
          exact Function.update_of_ne hold _ _
        refine (h old).of_untouched hsymbols hindex (hlabels old) fun hfalse ↦ hold ?_
        exact Option.some.inj (hfalse.symm.trans hlabel)

/-! ### Sequences of calls -/

/-- A call leaves a right index right exactly if it fits. -/
theorem indexed_call_iff (h : s.Indexed) (files : SymbolFiles) (c : SymbolCall) :
    (s.call files c).Indexed ↔ Fits files s c := by
  cases c with
  | addUserSymbol address name => exact indexed_addUserSymbol_iff h address name
  | removeUserSymbol address => exact indexed_removeUserSymbol_iff h address
  | loadModule path moduleName baseAddr =>
    exact iff_of_true ((pushed_loadModule files path moduleName baseAddr s).indexed h) trivial
  | loadProcess modules => exact indexed_cleared_iff (pushed_loadProcess files modules s)
  | clear =>
    refine (indexed_cleared_iff .refl).trans ⟨fun hfound address ↦ ?_, fun hnone address name hl ↦ ?_⟩
    · refine Option.eq_none_iff_forall_not_mem.mpr fun name hname ↦ ?_
      obtain ⟨a, hfalse, -⟩ := hfound address name hname
      cases hfalse
    · cases (hnone address).symm.trans hl

theorem indexed_new : new.Indexed := by
  intro name
  refine ⟨?_, fun _ ↦ rfl⟩
  rintro ⟨address, hfalse⟩
  cases hfalse

/-- The resolver before the first of the calls and after each of them. -/
def states (s : SymbolResolver) : List (SymbolFiles × SymbolCall) → List SymbolResolver
  | [] => [s]
  | c :: rest => s :: states (s.call c.1 c.2) rest

/-- Every call fits where it is made. -/
def AllFit (s : SymbolResolver) : List (SymbolFiles × SymbolCall) → Prop
  | [] => True
  | c :: rest => Fits c.1 s c.2 ∧ AllFit (s.call c.1 c.2) rest

theorem head_mem_states (s : SymbolResolver) (calls : List (SymbolFiles × SymbolCall)) :
    s ∈ s.states calls := by
  cases calls with
  | nil => exact List.mem_singleton_self s
  | cons c rest => exact List.mem_cons_self

/-- The last state is that of the run. -/
theorem run_mem_states (calls : List (SymbolFiles × SymbolCall)) : run calls ∈ new.states calls := by
  unfold run
  generalize new = s
  induction calls generalizing s with
  | nil => exact List.mem_singleton_self s
  | cons c rest ih => exact List.mem_cons_of_mem _ (ih (s.call c.1 c.2))

theorem indexed_states_iff (h : s.Indexed) (calls : List (SymbolFiles × SymbolCall)) :
    (∀ state ∈ s.states calls, state.Indexed) ↔ s.AllFit calls := by
  induction calls generalizing s with
  | nil => exact iff_of_true (List.forall_mem_singleton.mpr h) trivial
  | cons c rest ih =>
    constructor
    · intro hstates
      have hrest := fun state hstate ↦ hstates state (List.mem_cons_of_mem s hstate)
      have hnext := hrest _ (head_mem_states _ rest)
      exact ⟨(indexed_call_iff h c.1 c.2).mp hnext, (ih hnext).mp hrest⟩
    · rintro ⟨hfits, hrest⟩
      have hnext := (indexed_call_iff h c.1 c.2).mpr hfits
      exact List.forall_mem_cons.mpr ⟨h, (ih hnext).mpr hrest⟩

/-- In a sequence of calls that all fit, every lookup of every state gives a current label of the
name, otherwise the first symbol, otherwise zero; and the first call that does not fit leaves a name
leading elsewhere. -/
theorem labels_resolve_iff (calls : List (SymbolFiles × SymbolCall)) :
    (new.AllFit calls → ∀ state ∈ new.states calls, ∀ name, state.Resolves name) ∧
      ((∀ state ∈ new.states calls, state.Indexed) ↔ new.AllFit calls) := by
  have hiff := indexed_states_iff indexed_new calls
  exact ⟨fun hfit state hstate name ↦ (hiff.mpr hfit state hstate).resolves name, hiff⟩

/-- A file with the function `main`. -/
def mainFiles : SymbolFiles where
  file := fun path ↦ if path = "/game".toList then
      some (.elf64 ⟨false, [⟨true, true, 6, [⟨1, 1, 2, "main".toList, 0x401000, 16⟩]⟩], none, [], []⟩)
    else none
  demangle := fun _ ↦ none

/-- The calls, with the same file. -/
def mainCalls (calls : List SymbolCall) : List (SymbolFiles × SymbolCall) :=
  calls.map fun c ↦ (mainFiles, c)

/-- A label is added and removed, of a name of its own or of that of the function. -/
def labelCalls (name : Text) : List (SymbolFiles × SymbolCall) :=
  mainCalls [.loadModule "/game".toList "game".toList 0, .addUserSymbol 0x5000 name,
    .removeUserSymbol 0x5000]

theorem labels_resolve_health : (run (labelCalls "health".toList)).Resolves "main".toList := by
  refine (labels_resolve_iff _).1 (?_ : new.AllFit (labelCalls "health".toList)) _ (run_mem_states _) _
  refine ⟨trivial, ?_, ?_, trivial⟩
  · intro old hold
    cases hold
  · intro name hname
    obtain rfl : "health".toList = name := Option.some.inj hname
    refine ⟨fun other hother hfalse ↦ ?_, by decide⟩
    have hnone : Function.update new.userSymbols 0x5000 (some "health".toList) other = none :=
      Function.update_of_ne hother _ _
    cases hnone.symm.trans hfalse

/-- An address is labelled anew, two addresses have one label, and the process is loaded again. -/
def renamedCalls : List (SymbolFiles × SymbolCall) :=
  mainCalls [.addUserSymbol 0x5000 "old".toList, .addUserSymbol 0x5000 "new".toList]

def doubledCalls : List (SymbolFiles × SymbolCall) :=
  mainCalls [.addUserSymbol 0x5000 "twice".toList, .addUserSymbol 0x6000 "twice".toList,
    .removeUserSymbol 0x6000]

def reloadedCalls : List (SymbolFiles × SymbolCall) :=
  mainCalls [.addUserSymbol 0x5000 "health".toList, .loadProcess []]

/-- A label that is removed takes a symbol of its name along; an address that is labelled anew keeps
its old name; one of two labels of a name takes the other along; and a reload loses all of them. -/
theorem labels_lost :
    ((run (labelCalls "main".toList)).lookup "main".toList = 0 ∧
      firstSymbol (run (labelCalls "main".toList)).symbols "main".toList = some 0x401000 ∧
      ¬(run (labelCalls "main".toList)).Resolves "main".toList) ∧
    ((run renamedCalls).lookup "old".toList = 0x5000 ∧
      (run renamedCalls).userSymbols 0x5000 = some "new".toList) ∧
    ((run doubledCalls).lookup "twice".toList = 0 ∧
      (run doubledCalls).userSymbols 0x5000 = some "twice".toList) ∧
    (run reloadedCalls).lookup "health".toList = 0 ∧
      (run reloadedCalls).userSymbols 0x5000 = some "health".toList := by
  have hzero : (run (labelCalls "main".toList)).lookup "main".toList = 0 := by
    decide
  refine ⟨⟨hzero, by decide, fun hresolves ↦ ?_⟩, by decide, by decide, by decide⟩
  by_cases hlabelled : (run (labelCalls "main".toList)).Labelled "main".toList
  · have hfalse := hresolves.label hlabelled
    rw [hzero] at hfalse
    exact absurd hfalse (by decide)
  · have hfalse := hresolves.symbol hlabelled
    rw [hzero] at hfalse
    exact absurd hfalse (by decide)

end SymbolResolver

end Cecore.Symbols
