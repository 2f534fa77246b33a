import Cecore.Core.Digits
import Cecore.Expression.Failure
import Cecore.Expression.Sum
import Cecore.Pointer.Dereference
import Mathlib.Data.Nat.Digits.Defs

/-!
# Pointer paths as address expressions

`PointerPath::toString` and what `ExpressionParser` reads from it: every bracket of the text is one
pointer of the path (`parse_toString`), so that the text leads where the path does if its innermost
part is read as the place in the module. That part is written into a buffer of 64 bytes.
-/

set_option autoImplicit false
set_option relaxedAutoImplicit false

namespace Cecore.Pointer

open Expression Expression.ExpressionParser

/-! ### The text of a path -/

/-- What `snprintf` leaves of a text in a buffer of a size. -/
def snprintf (size : ℕ) (text : Text) : Text := text.take (size - 1)

/-- The characters of a `%s` argument. -/
def cString (text : Text) : Text := text.takeWhile fun c ↦ decide (c ≠ '\x00')

def PointerPath.baseText (path : PointerPath) : Text :=
  snprintf 64 (cString path.module ++ '+' :: hex path.baseOffset)

def offsetText (off : ℤ) : Text :=
  if 0 ≤ off then '+' :: '0' :: 'x' :: hex off.toNat else '-' :: '0' :: 'x' :: hex (-off).toNat

/-- `toString`. -/
def PointerPath.toString (path : PointerPath) : Text :=
  List.replicate path.offsets.length '[' ++ path.baseText ++
    path.offsets.flatMap fun off ↦ ']' :: snprintf 64 (offsetText off)

/-! ### Brackets around a text -/

/-- A text in a bracket for each offset. -/
def wrap : Text → List ℤ → Text
  | t, [] => t
  | t, off :: rest => wrap ('[' :: (t ++ ']' :: offsetText off)) rest

/-- The address that pointers lead to from an address. -/
def walk (readAt : ℕ → Option ℕ) : ℕ → List ℤ → Option ℕ
  | address, [] => some address
  | address, off :: rest => (readAt address).bind fun ptr ↦ walk readAt (wordOf (ptr + off)) rest

/-- The offsets are 32-bit numbers. -/
def Int32s (offsets : List ℤ) : Prop := ∀ off ∈ offsets, -(2 ^ 31) ≤ off ∧ off < 2 ^ 31

/-! ### Module names in a text -/

/-- `moduleLength` takes the longest of the lengths of module names that the text starts with and
that end in front of an operator or at the end. -/
theorem foldl_moduleLength (s : Text) (mods : List ModuleInfo) (start : ℕ) :
    let len := mods.foldl (fun modLen m ↦
      if m.name.length ≤ modLen then modLen
      else if m.name.isPrefixOf s ∧ endsTerm (s.drop m.name.length) then m.name.length
      else modLen) start
    start ≤ len ∧ (len = start ∨ ∃ m ∈ mods, len = m.name.length ∧ m.name <+: s ∧
        endsTerm (s.drop m.name.length) = true) ∧
      ∀ m ∈ mods, m.name <+: s → endsTerm (s.drop m.name.length) = true → m.name.length ≤ len := by
  induction mods generalizing start with
  | nil => exact ⟨le_rfl, Or.inl rfl, List.forall_mem_nil _⟩
  | cons m mods ih =>
    rw [List.foldl_cons]
    obtain ⟨hle, hcases, hothers⟩ := ih (if m.name.length ≤ start then start
      else if m.name.isPrefixOf s ∧ endsTerm (s.drop m.name.length) then m.name.length else start)
    refine ⟨le_trans ?_ hle, ?_,
      List.forall_mem_cons.mpr ⟨fun hstarts hends ↦ le_trans ?_ hle, hothers⟩⟩
    · split_ifs <;> omega
    · rcases hcases with hsame | ⟨found, hfound, hlen⟩
      · rw [hsame]
        split_ifs with hshort htaken
        · exact Or.inl rfl
        · exact Or.inr ⟨m, List.mem_cons_self, rfl, List.isPrefixOf_iff_prefix.mp htaken.1, htaken.2⟩
        · exact Or.inl rfl
      · exact Or.inr ⟨found, List.mem_cons_of_mem _ hfound, hlen⟩
    · split_ifs with hshort htaken
      · exact hshort
      · exact le_rfl
      · exact absurd ⟨List.isPrefixOf_iff_prefix.mpr hstarts, hends⟩ htaken

theorem moduleLength_cases (mods : List ModuleInfo) (s : Text) : moduleLength mods s = 0 ∨
    ∃ m ∈ mods, moduleLength mods s = m.name.length ∧ m.name <+: s ∧
      endsTerm (s.drop m.name.length) = true :=
  (foldl_moduleLength s mods 0).2.1

theorem le_moduleLength {mods : List ModuleInfo} {s : Text} {m : ModuleInfo} (hm : m ∈ mods)
    (hstarts : m.name <+: s) (hends : endsTerm (s.drop m.name.length) = true) :
    m.name.length ≤ moduleLength mods s :=
  (foldl_moduleLength s mods 0).2.2 m hm hstarts hends

/-- A text without operators is one term, be it a module name or not. -/
theorem moduleLength_flat (mods : List ModuleInfo) {w : Text} (hflat : ∀ c ∈ w, isOperator c = false) :
    moduleLength mods w = w.length ∨ moduleLength mods w = 0 := by
  rcases moduleLength_cases mods w with hzero | ⟨m, -, hlen, hstarts, hends⟩
  · exact Or.inr hzero
  · left
    rw [hlen]
    refine le_antisymm hstarts.length_le (not_lt.mp fun hlt ↦ ?_)
    cases hdrop : w.drop m.name.length with
    | nil =>
      rw [List.drop_eq_nil_iff] at hdrop
      omega
    | cons c rest =>
      have hc := hflat c (List.mem_of_mem_drop (hdrop ▸ List.mem_cons_self))
      rw [hdrop, endsTerm, List.head?_cons, Option.all_some, hc] at hends
      cases hends

theorem snprintf_offsetText {off : ℤ} (hlow : -(2 ^ 31) ≤ off) (hhigh : off < 2 ^ 31) :
    snprintf 64 (offsetText off) = offsetText off := by
  have hlength : ∀ value : ℕ, value ≤ 2 ^ 31 → (hex value).length ≤ 8 := fun value hvalue ↦
    Nat.toDigits_length 16 value 8 (by decide) (lt_of_le_of_lt hvalue (by decide))
  refine List.take_of_length_le ?_
  unfold offsetText
  split_ifs with hsign
  · have := hlength off.toNat (by omega)
    simp only [List.length_cons]
    omega
  · have := hlength (-off).toNat (by omega)
    simp only [List.length_cons]
    omega

theorem toString_eq_wrap {path : PointerPath} (hoffsets : Int32s path.offsets) :
    path.toString = wrap path.baseText path.offsets := by
  unfold PointerPath.toString
  generalize path.baseText = t
  revert hoffsets
  generalize path.offsets = offsets
  intro hoffsets
  induction offsets generalizing t with
  | nil => simp [wrap]
  | cons off rest ih =>
    obtain ⟨hoff, hrest⟩ := List.forall_mem_cons.mp hoffsets
    rw [wrap, ← ih _ hrest, List.flatMap_cons, snprintf_offsetText hoff.1 hoff.2, List.length_cons,
      List.replicate_succ']
    simp

variable {parser : ExpressionParser}

/-! ### What is read -/

/-- A term without operators is cut at the end of the text. -/
theorem cutAt_of_flat {atStart : Bool} {a : Atom} (hflat : ∀ c ∈ a.text, isOperator c = false) :
    a.CutAt parser atStart [] [] [] := by
  rcases moduleLength_flat parser.modules hflat with hwhole | hnone
  · exact Or.inl ⟨rfl, rfl, by rwa [List.append_nil]⟩
  · refine Or.inr ⟨?_, ?_, fun _ hne ↦ absurd rfl hne⟩
    · rwa [List.nil_append, List.append_nil, List.append_nil]
    · refine List.any_eq_false.mpr fun c hc ↦ ?_
      rw [hflat c hc]
      exact Bool.false_ne_true

theorem marked_wellFormed (parser : ExpressionParser) (value : ℕ) :
    (Atom.prefixed 'x' (hex value)).WellFormed parser :=
  ⟨Or.inl rfl, hex_ne_nil value, List.all_eq_true.mpr fun _ hc ↦ isHexDigit_of_mem_hex hc⟩

/-- A number with its mark is read as it is. -/
theorem parseImpl_marked {value : ℕ} (hvalue : value < sizeModulus) (levels : ℕ) :
    parser.parseImpl (levels + 1) ('0' :: 'x' :: hex value) = some value := by
  have hfits : (Atom.prefixed 'x' (hex value)).Fits := by
    change digitsValue 16 (hex value) < sizeModulus
    rwa [digitsValue_hex]
  have hflat : ∀ c ∈ '0' :: 'x' :: hex value, isOperator c = false := by
    refine List.forall_mem_cons.mpr ⟨rfl, List.forall_mem_cons.mpr ⟨rfl, fun c hc ↦ ?_⟩⟩
    exact isOperator_of_mem_hex hc
  have hcut : (Atom.prefixed 'x' (hex value)).CutAt parser true [] [] [] := cutAt_of_flat hflat
  have htotal : (Sum.one (.atom (.prefixed 'x' (hex value)))).total parser 0 false =
      some (value : ℤ) := by
    simp [Sum.total, Term.value, Atom.value, digitsValue_hex, signed]
  have hparse := (sum_ok (.one (.atom (.prefixed 'x' (hex value)))) (marked_wellFormed parser value)).2
    (levels + 1) [] value ⟨hfits, hcut⟩ rfl (Nat.le_add_left 1 levels) htotal
  rw [List.nil_append, residue_of_lt hvalue] at hparse
  exact hparse

theorem accumulate_eq_wordOf (ptr : ℕ) {off : ℤ} (hlow : -(2 ^ 31) ≤ off) (hhigh : off < 2 ^ 31) :
    accumulate ptr (decide (off < 0)) off.natAbs = wordOf (ptr + off) := by
  unfold accumulate wordOf sizeModulus
  by_cases hsign : off < 0
  · rw [decide_eq_true hsign, if_pos rfl]
    omega
  · rw [decide_eq_false hsign, if_neg Bool.false_ne_true]
    omega

/-- An offset is an operator with a number behind it, and is read as it is. -/
theorem exists_offsetText (parser : ExpressionParser) {off : ℤ} (hlow : -(2 ^ 31) ≤ off)
    (hhigh : off < 2 ^ 31) :
    ∃ op digits, offsetText off = op :: digits ∧ isOperator op = true ∧ Solid (op :: digits) ∧
      '[' ∉ op :: digits ∧ ']' ∉ op :: digits ∧ ∀ levels, ∃ value,
        parser.parseImpl (levels + 1) digits = some value ∧
          ∀ ptr, accumulate ptr (op = '-') value = wordOf (ptr + off) := by
  obtain ⟨hsolid, hopen, hclose⟩ := Atom.text_solid (marked_wellFormed parser off.natAbs)
  have hsolidOp : ∀ op, isOperator op = true → Solid (op :: '0' :: 'x' :: hex off.natAbs) := by
    intro op hop
    obtain ⟨c, hlast, hblank⟩ := hsolid.last
    refine ⟨⟨op, rfl, ?_⟩, c, ?_, hblank⟩
    · rcases (by simpa [isOperator] using hop : op = '+' ∨ op = '-') with rfl | rfl <;> rfl
    · rw [List.getLast?_cons_cons]
      exact hlast
  have hvalue : off.natAbs < sizeModulus := by
    unfold sizeModulus
    omega
  have haccumulate := fun ptr ↦ accumulate_eq_wordOf ptr hlow hhigh
  by_cases hsign : 0 ≤ off
  · refine ⟨'+', '0' :: 'x' :: hex off.natAbs, ?_, rfl, hsolidOp '+' rfl, ?_, ?_, fun levels ↦
      ⟨off.natAbs, parseImpl_marked hvalue levels, fun ptr ↦ ?_⟩⟩
    · rw [offsetText, if_pos hsign, show off.toNat = off.natAbs by omega]
    · exact fun hmem ↦ (List.mem_cons.mp hmem).elim (by decide) hopen
    · exact fun hmem ↦ (List.mem_cons.mp hmem).elim (by decide) hclose
    · rw [← haccumulate ptr, decide_eq_false (not_lt.mpr hsign)]
      rfl
  · refine ⟨'-', '0' :: 'x' :: hex off.natAbs, ?_, rfl, hsolidOp '-' rfl, ?_, ?_, fun levels ↦
      ⟨off.natAbs, parseImpl_marked hvalue levels, fun ptr ↦ ?_⟩⟩
    · rw [offsetText, if_neg hsign, show (-off).toNat = off.natAbs by omega]
    · exact fun hmem ↦ (List.mem_cons.mp hmem).elim (by decide) hopen
    · exact fun hmem ↦ (List.mem_cons.mp hmem).elim (by decide) hclose
    · rw [← haccumulate ptr, decide_eq_true (not_le.mp hsign)]
      rfl

/-- A bracket around a text reads one pointer. -/
theorem parseImpl_bracket_offsetText {t : Text} (ht : Balanced t) {off : ℤ} (hlow : -(2 ^ 31) ≤ off)
    (hhigh : off < 2 ^ 31) (levels : ℕ) :
    parser.parseImpl (levels + 1) ('[' :: (t ++ ']' :: offsetText off)) =
      (parser.parseImpl levels t).bind fun address ↦
        (parser.readAt address).bind fun ptr ↦ some (wordOf (ptr + off)) := by
  obtain ⟨op, digits, htext, hop, hsolid, -, -, hvalue⟩ := exists_offsetText parser hlow hhigh
  have htrim : trim ('[' :: (t ++ ']' :: offsetText off)) = '[' :: (t ++ ']' :: offsetText off) := by
    obtain ⟨c, hlast, hblank⟩ := hsolid.last
    refine trim_solid ⟨⟨'[', rfl, rfl⟩, c, ?_, hblank⟩
    rw [htext, ← List.cons_append, List.getLast?_append, List.getLast?_cons_cons, hlast]
    rfl
  rw [parseImpl_bracket htrim (closing_inner ht _), htext]
  cases levels with
  | zero => rfl
  | succ levels =>
    obtain ⟨value, hparse, haccumulate⟩ := hvalue levels
    simp only [afterBracket_offset (trim_solid hsolid) hop, hparse, Option.map_some, haccumulate]

theorem balanced_bracket_offsetText {t : Text} (ht : Balanced t) {off : ℤ} (hlow : -(2 ^ 31) ≤ off)
    (hhigh : off < 2 ^ 31) : Balanced ('[' :: (t ++ ']' :: offsetText off)) := by
  obtain ⟨op, digits, htext, -, -, hopen, hclose, -⟩ := exists_offsetText ⟨none, none⟩ hlow hhigh
  rw [htext]
  exact .bracket ht (.of_not_mem hopen hclose)

theorem parseImpl_wrap {t : Text} (ht : Balanced t) {offsets : List ℤ} (hoffsets : Int32s offsets)
    (levels : ℕ) : parser.parseImpl (levels + offsets.length) (wrap t offsets) =
      (parser.parseImpl levels t).bind fun address ↦ walk parser.readAt address offsets := by
  induction offsets generalizing t levels with
  | nil => simp [wrap, walk]
  | cons off rest ih =>
    obtain ⟨⟨hlow, hhigh⟩, hrest⟩ := List.forall_mem_cons.mp hoffsets
    have hlevels : levels + (off :: rest).length = levels + 1 + rest.length := by
      rw [List.length_cons]
      omega
    rw [hlevels, wrap, ih (balanced_bracket_offsetText ht hlow hhigh) hrest (levels + 1),
      parseImpl_bracket_offsetText ht hlow hhigh, Option.bind_assoc]
    simp only [walk, Option.bind_assoc, Option.bind_some]

theorem wrap_append (t : Text) (first second : List ℤ) :
    wrap t (first ++ second) = wrap (wrap t first) second := by
  induction first generalizing t with
  | nil => rfl
  | cons off rest ih => exact ih _

theorem walk_append (readAt : ℕ → Option ℕ) (address : ℕ) (first second : List ℤ) :
    walk readAt address (first ++ second) =
      (walk readAt address first).bind fun middle ↦ walk readAt middle second := by
  induction first generalizing address with
  | nil => rfl
  | cons off rest ih => simp only [List.cons_append, walk, ih, Option.bind_assoc]

theorem balanced_wrap {t : Text} (ht : Balanced t) {offsets : List ℤ} (hoffsets : Int32s offsets) :
    Balanced (wrap t offsets) := by
  induction offsets generalizing t with
  | nil => exact ht
  | cons off rest ih =>
    obtain ⟨⟨hlow, hhigh⟩, hrest⟩ := List.forall_mem_cons.mp hoffsets
    exact ih (balanced_bracket_offsetText ht hlow hhigh) hrest

/-- Every bracket of the text of a path reads one pointer, from the address that the innermost part
is read as. -/
theorem parse_toString {path : PointerPath} (hbase : Balanced path.baseText)
    (hoffsets : Int32s path.offsets) : parser.parse path.toString =
      (parser.parseImpl (kMaxDepth + 1 - path.offsets.length) path.baseText).bind fun address ↦
        walk parser.readAt address path.offsets := by
  rw [parse, toString_eq_wrap hoffsets]
  by_cases hlength : path.offsets.length ≤ kMaxDepth + 1
  · rw [← parseImpl_wrap hbase hoffsets, Nat.sub_add_cancel hlength]
  · -- the brackets inside are nested too deep
    obtain ⟨outer, hdepth⟩ := Nat.exists_eq_add_of_lt (not_le.mp hlength)
    have hinner : Int32s (path.offsets.take (outer + 1)) := fun off hoff ↦
      hoffsets off (List.mem_of_mem_take hoff)
    have hrest : Int32s (path.offsets.drop (outer + 1)) := fun off hoff ↦
      hoffsets off (List.mem_of_mem_drop hoff)
    have hlevels : kMaxDepth + 1 = 0 + (path.offsets.drop (outer + 1)).length := by
      rw [List.length_drop]
      omega
    have hsplit : wrap path.baseText path.offsets =
        wrap (wrap path.baseText (path.offsets.take (outer + 1))) (path.offsets.drop (outer + 1)) := by
      rw [← wrap_append, List.take_append_drop]
    rw [Nat.sub_eq_zero_of_le (by omega), hsplit, hlevels,
      parseImpl_wrap (balanced_wrap hbase hinner) hrest 0]
    rfl

end Cecore.Pointer
