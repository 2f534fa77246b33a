import Cecore.Pointer.PathText
import Mathlib.Data.List.TakeWhile

/-!
# Reading back the text of a pointer path

The text of a path of a scan is read as the address that the path leads to where the name of the
module is plain: not cut, not a number, not a symbol, and found among the modules as it stands. In
general the address depends on what the innermost part of the text, cut to the buffer, is read as
(`survives_iff`).
-/

set_option autoImplicit false
set_option relaxedAutoImplicit false

namespace Cecore.Pointer

open Library.BreadthFirst Expression Expression.ExpressionParser

/-- A parser over the process that paths are dereferenced in. -/
def parserOf (proc : Process) (resolver : Option (Text → ℕ)) : ExpressionParser where
  proc := some { modules := proc.modules, handle := proc.toProcessHandle }
  resolver := resolver

/-- The text of the path is read as the address that the path leads to. -/
def Survives (proc : Process) (resolver : Option (Text → ℕ)) (path : PointerPath) : Prop :=
  (parserOf proc resolver).parse path.toString = some (dereference proc path)

/-- The place in the module is read as it is written. -/
structure PlainName (parser : ExpressionParser) (path : PointerPath) : Prop where
  fits : (path.module ++ '+' :: hex path.baseOffset).length < 64
  characters : '\x00' ∉ path.module
  name : (Atom.name path.module).WellFormed parser
  symbol : ∀ lookup, parser.resolver = some lookup → lookup path.module = 0
  alone : ∀ m ∈ parser.modules, m.name ≠ path.module ++ '+' :: hex path.baseOffset
  digits : (Atom.hex (hex path.baseOffset)).WellFormed parser

/-! ### Walks -/

theorem readAt_parserOf (proc : Process) (resolver : Option (Text → ℕ)) :
    (parserOf proc resolver).readAt = Pointer.pointerAt proc := by
  funext address
  simp only [readAt, parserOf, Option.bind_some, ExpressionParser.pointerAt, Pointer.pointerAt]
  cases proc.read address 8 <;> rfl

/-- A path that leads to an address leads there over pointers that can be read. -/
theorem walk_of_followOffsets {pointerAt : ℕ → Option ℕ} {address : ℕ} {offsets : List ℤ}
    (h : followOffsets pointerAt address offsets ≠ 0) :
    walk pointerAt address offsets = some (followOffsets pointerAt address offsets) := by
  induction offsets generalizing address with
  | nil => rfl
  | cons off rest ih =>
    rw [followOffsets] at h ⊢
    rw [walk]
    cases hpointer : pointerAt address with
    | none =>
      rw [hpointer] at h
      exact absurd rfl h
    | some ptr =>
      rw [hpointer] at h
      dsimp only at h ⊢
      split_ifs at h ⊢
      · exact absurd rfl h
      · exact ih h

/-! ### The place in the module -/

section Base

variable {parser : ExpressionParser} {path : PointerPath}

theorem PlainName.baseText (h : PlainName parser path) :
    path.baseText = path.module ++ '+' :: hex path.baseOffset := by
  have hcharacters : cString path.module = path.module :=
    List.takeWhile_eq_self_iff.mpr fun c hc ↦ decide_eq_true fun heq ↦ h.characters (heq ▸ hc)
  rw [PointerPath.baseText, hcharacters, snprintf, List.take_of_length_le]
  have := h.fits
  omega

theorem PlainName.balanced (h : PlainName parser path) : Balanced path.baseText := by
  obtain ⟨-, hopen, hclose⟩ := Atom.text_solid h.name
  have hname : Balanced path.module := .of_not_mem hopen hclose
  obtain ⟨-, hopen, hclose⟩ := Atom.text_solid h.digits
  rw [h.baseText]
  exact hname.append (.char (by decide) (by decide) (.of_not_mem hopen hclose))

/-- The name is taken for the first term. -/
theorem PlainName.moduleLength (h : PlainName parser path) {m : ModuleInfo} (hm : m ∈ parser.modules)
    (hname : m.name = path.module) :
    moduleLength parser.modules (path.module ++ '+' :: hex path.baseOffset) = path.module.length := by
  refine le_antisymm ?_ ?_
  · rcases moduleLength_cases parser.modules (path.module ++ '+' :: hex path.baseOffset) with
      hzero | ⟨other, hother, hlen, hstarts, hends⟩
    · rw [hzero]
      exact Nat.zero_le _
    · rw [hlen]
      refine not_lt.mp fun hlt ↦ ?_
      obtain ⟨behind, hbehind⟩ := hstarts
      cases behind with
      | nil => exact h.alone other hother (by rwa [List.append_nil] at hbehind)
      | cons c behind =>
        -- what follows the longer name is a digit
        have hdrop : (path.module ++ '+' :: hex path.baseOffset).drop other.name.length =
            c :: behind := by
          rw [← hbehind, List.drop_left]
        have hdigit : c ∈ hex path.baseOffset := by
          obtain ⟨k, hk⟩ := Nat.exists_eq_add_of_lt hlt
          rw [hk, List.drop_append, List.drop_eq_nil_of_le (by omega), List.nil_append,
            show path.module.length + k + 1 - path.module.length = k + 1 by omega,
            List.drop_succ_cons] at hdrop
          exact List.mem_of_mem_drop (hdrop ▸ List.mem_cons_self)
        rw [hdrop, endsTerm, List.head?_cons, Option.all_some, isOperator_of_mem_hex hdigit] at hends
        cases hends
  · rw [← hname]
    refine le_moduleLength hm (List.prefix_append _ _) ?_
    rw [List.drop_left]
    rfl

/-- The place is read as the base of the module and the offset from there. -/
theorem PlainName.parseImpl_baseText (h : PlainName parser path)
    (hbaseOffset : path.baseOffset < sizeModulus)
    (hbase : PointerMap.moduleBase parser.modules path.module ≠ 0) (levels : ℕ) :
    parser.parseImpl (levels + 1) path.baseText =
      some ((PointerMap.moduleBase parser.modules path.module + path.baseOffset) % sizeModulus) := by
  obtain ⟨m, hfind, hm⟩ : ∃ m, parser.modules.find? (fun m ↦ decide (m.name = path.module)) = some m ∧
      PointerMap.moduleBase parser.modules path.module = m.base := by
    unfold PointerMap.moduleBase at hbase ⊢
    split at hbase
    · next m hfind => exact ⟨m, hfind, rfl⟩
    · exact absurd rfl hbase
  have hname : m.name = path.module := by simpa using List.find?_some hfind
  have haddress : parser.nameAddress path.module = some m.base := by
    have hsymbol : (parser.resolver.bind fun lookup ↦
        if lookup path.module = 0 then none else some (lookup path.module)) = none := by
      cases hresolver : parser.resolver with
      | none => rfl
      | some lookup => rw [Option.bind_some, if_pos (h.symbol lookup hresolver)]
    rw [nameAddress, hsymbol, hfind]
    rfl
  have hdigits : (Atom.hex (hex path.baseOffset)).Fits := by
    change digitsValue 16 (hex path.baseOffset) < sizeModulus
    rwa [digitsValue_hex]
  have hcutDigits : (Atom.hex (hex path.baseOffset)).CutAt parser false [] [] [] :=
    cutAt_of_flat fun _ hc ↦ isOperator_of_mem_hex hc
  have hcutName : (Atom.name path.module).CutAt parser true [] [] ('+' :: hex path.baseOffset) :=
    Or.inl ⟨rfl, rfl, h.moduleLength (List.mem_of_find?_eq_some hfind) hname⟩
  have htotal : (Sum.more (.atom (.name path.module)) [] false []
      (.one (.atom (.hex (hex path.baseOffset))))).total parser 0 false =
        some ((m.base : ℤ) + path.baseOffset) := by
    simp [Sum.total, Term.value, Atom.value, haddress, digitsValue_hex, signed]
  have hparse := (sum_ok (.more (.atom (.name path.module)) [] false []
    (.one (.atom (.hex (hex path.baseOffset))))) ⟨h.name, rfl, rfl, h.digits⟩).2 (levels + 1) [] _
      ⟨trivial, hcutName, hdigits, hcutDigits⟩ rfl (Nat.le_add_left 1 levels) htotal
  have hresidue : residue ((m.base : ℤ) + path.baseOffset) =
      (m.base + path.baseOffset) % sizeModulus := by
    rw [residue, ← Nat.cast_add, ← Int.natCast_mod, Int.toNat_natCast]
  rw [h.baseText, hm, ← hresidue]
  exact hparse

end Base

/-! ### Paths of a scan -/

variable {map : PointerMap} {config : PointerScanConfig}

theorem int32Of_bounds (word : ℕ) : -(2 ^ 31) ≤ int32Of word ∧ int32Of word < 2 ^ 31 := by
  unfold int32Of
  split_ifs <;> omega

/-- The numbers of a path of a scan are of the types that the path has for them. -/
theorem int32s_of_mem_scan {results : List PointerPath} (hscan : scanWithMap map config = some results)
    {path : PointerPath} (hpath : path ∈ results) :
    Int32s path.offsets ∧ path.baseOffset < sizeModulus := by
  by_cases hshard : config.shardIndex < config.shardCount
  · have hover : ¬Overruns map config [] (searched map config) := by
      rw [← scanWithMap_eq_none hshard, hscan]
      exact Option.some_ne_none results
    rw [scanWithMap_eq hshard hover, Option.some_inj] at hscan
    rw [← hscan] at hpath
    obtain ⟨item, hitem, hrecorded⟩ := List.mem_flatMap.mp (List.mem_of_mem_take hpath)
    obtain ⟨entry, hentry, hrecord⟩ := List.mem_filterMap.mp hrecorded
    have hoffsets : ∀ item ∈ searched map config, Int32s item.offsets := by
      refine search_induct (fun item hitem child hchild ↦ ?_) ?_
      · unfold children at hchild
        split_ifs at hchild
        · obtain ⟨entry, -, rfl⟩ := List.mem_map.mp hchild
          exact List.forall_mem_cons.mpr ⟨int32Of_bounds _, hitem⟩
        · cases hchild
      · rw [List.forall_mem_singleton]
        exact List.forall_mem_nil _
    unfold record at hrecord
    split at hrecord
    · cases hrecord
    · split_ifs at hrecord
      obtain rfl := Option.some.inj hrecord
      refine ⟨List.forall_mem_cons.mpr ⟨int32Of_bounds _, hoffsets item hitem⟩, ?_⟩
      exact lt_of_le_of_lt (Nat.sub_le _ _) (map.words entry (mem_byTarget_of_mem_pointersTo hentry)).2
  · rw [scanWithMap, if_pos (Or.inr (not_lt.mp hshard)), Option.some_inj] at hscan
    rw [← hscan] at hpath
    cases hpath

/-- The text of a path of a scan is read as the address that the path leads to, where the name of
the module is plain and the brackets are not nested too deep. Where no bracket is closed in the
name, this is so exactly if the offsets lead to that address from what the cut name and offset are
read as. -/
theorem survives_iff {results : List PointerPath} (hscan : scanWithMap map config = some results)
    {path : PointerPath} (hpath : path ∈ results) (proc : Process) (resolver : Option (Text → ℕ)) :
    (PlainName (parserOf proc resolver) path → path.offsets.length ≤ kMaxDepth → dereference proc path ≠ 0 →
      Survives proc resolver path) ∧
    (Balanced path.baseText → (Survives proc resolver path ↔ path.offsets.length ≤ kMaxDepth ∧
      ∃ address, (parserOf proc resolver).parseImpl (kMaxDepth + 1 - path.offsets.length) path.baseText =
        some address ∧ walk (Pointer.pointerAt proc) address path.offsets = some (dereference proc path))) := by
  obtain ⟨hoffsets, hbaseOffset⟩ := int32s_of_mem_scan hscan hpath
  have hparse : Balanced path.baseText → (parserOf proc resolver).parse path.toString =
      ((parserOf proc resolver).parseImpl (kMaxDepth + 1 - path.offsets.length) path.baseText).bind
        fun address ↦ walk (Pointer.pointerAt proc) address path.offsets := fun hbase ↦ by
    rw [parse_toString hbase hoffsets, readAt_parserOf]
  constructor
  · intro hplain hdepth hleads
    obtain ⟨levels, hlevels⟩ := Nat.exists_eq_add_of_le hdepth
    have hbase : PointerMap.moduleBase proc.modules path.module ≠ 0 := by
      intro hzero
      rw [dereference, hzero] at hleads
      exact hleads rfl
    have hwalk : dereference proc path = followOffsets (Pointer.pointerAt proc)
        ((PointerMap.moduleBase proc.modules path.module + path.baseOffset) % sizeModulus) path.offsets := by
      rw [dereference]
      exact if_neg hbase
    rw [Survives, hparse hplain.balanced, show kMaxDepth + 1 - path.offsets.length = levels + 1 by omega,
      hplain.parseImpl_baseText hbaseOffset hbase, Option.bind_some, hwalk]
    exact walk_of_followOffsets (hwalk ▸ hleads)
  · intro hbase
    rw [Survives, hparse hbase, Option.bind_eq_some_iff]
    refine ⟨fun hsome ↦ ⟨?_, hsome⟩, fun h ↦ h.2⟩
    obtain ⟨address, haddress, -⟩ := hsome
    by_contra hdeep
    rw [Nat.sub_eq_zero_of_le (by omega)] at haddress
    cases haddress

/-! ### Two module names -/

theorem twoWords_plainName :
    PlainName (parserOf twoWords none) ⟨"game".toList, 0x400000, 0, [8]⟩ where
  fits := by decide
  characters := by decide
  name := by
    rw [Atom.WellFormed]
    decide
  symbol := fun lookup hlookup ↦ nomatch hlookup
  alone := by decide
  digits := by
    rw [Atom.WellFormed]
    decide

theorem twoWords_survives : Survives twoWords none ⟨"game".toList, 0x400000, 0, [8]⟩ :=
  (survives_iff (show scanWithMap twoWordsMap { targetAddress := 0x400010 } =
    some [⟨"game".toList, 0x400000, 0, [8]⟩] by decide) List.mem_cons_self twoWords none).1
    twoWords_plainName (by decide) (by decide)

/-- A name of 70 characters. -/
def longName : Text := List.replicate 70 'g'

/-- The words of `twoWords` in a module with a long name. -/
def longNamed : Process := { twoWords with modules := [⟨0x400000, 0x1000, longName, []⟩] }

def longNamedMap : PointerMap := { twoWordsMap with modules := longNamed.modules }

/-- The name of the module is cut to 63 characters, and so the text starts at no known place. -/
theorem longName_not_survives :
    scanWithMap longNamedMap { targetAddress := 0x400010 } = some [⟨longName, 0x400000, 0, [8]⟩] ∧
      dereference longNamed ⟨longName, 0x400000, 0, [8]⟩ = 0x400010 ∧
      ¬Survives longNamed none ⟨longName, 0x400000, 0, [8]⟩ := by
  refine ⟨by decide, by decide, ?_⟩
  unfold Survives
  decide

end Cecore.Pointer
