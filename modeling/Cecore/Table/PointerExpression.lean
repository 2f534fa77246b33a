import Cecore.Expression.Failure
import Cecore.Pointer.PathText

/-!
# Pointer expressions of table entries

`buildPointerExpression` and `parsePointerExpression` of `core/ct_file.cpp`: one bracket for each
offset of an entry around its base, the offset of the innermost bracket last. The text is read back
as the base, trimmed, and its offsets, and the address parser walks the offsets from the innermost
on (`pointerExpression_read`).
-/

set_option autoImplicit false
set_option relaxedAutoImplicit false

namespace Cecore.Table

open Expression Expression.ExpressionParser Pointer

/-! ### Writing and reading -/

/-- An offset is written as `+` or `-` and its magnitude; the most negative one has no opposite and
is printed as the unsigned word that it is. -/
def offsetSuffix (off : Int64) : Text :=
  if 0 ≤ off then '+' :: hex off.toUInt64.toNat else '-' :: hex (-off).toUInt64.toNat

def buildPointerExpression (base : Text) (offsets : List Int64) : Text :=
  offsets.foldr (fun off expr ↦ '[' :: (expr ++ ']' :: offsetSuffix off)) base

structure PointerExpr where
  base : Text
  offsets : List Int64
  deriving DecidableEq, Repr

/-- `trimPtrExpr`. -/
def trimPtrExpr (s : Text) : Text := trim s

/-- `val` with hexadecimal digits behind it, nothing at another character. -/
def hexDigits : (val : UInt64) → Text → Option UInt64
  | val, [] => some val
  | val, c :: rest =>
    match digitValue c with
    | some d => if d < 16 then hexDigits (val * 16 + UInt64.ofNat d) rest else none
    | none => none

/-- The text behind a `0x` in front of something. -/
def skipRadix : Text → Text
  | '0' :: x :: rest => if x = 'x' ∨ x = 'X' then rest else '0' :: x :: rest
  | s => s

def parseSignedHexOffset (s : Text) : Option Int64 :=
  let (neg, unsigned) := takeSign s
  match skipRadix unsigned with
  | [] => none
  | digits => (hexDigits 0 digits).map fun val ↦ if neg then -val.toInt64 else val.toInt64

/-- The text in front of the last `mark`, and the text behind it. -/
def splitAtLast (mark : Char) : Text → Option (Text × Text)
  | [] => none
  | c :: rest =>
    match splitAtLast mark rest with
    | some (front, behind) => some (c :: front, behind)
    | none => if c = mark then some ([], rest) else none

/-- The offset behind a bracket, zero where none is written. -/
def trailingOffset (tail : Text) : Option Int64 :=
  if tail = [] then some 0 else parseSignedHexOffset tail

/-- The loop over the brackets; each takes two characters, so that `turns` of the length of the text
are enough. -/
def peel : (turns : ℕ) → (offsets : List Int64) → Text → Option PointerExpr
  | _, _, [] => none
  | 0, _, '[' :: _ => none
  | turns + 1, offsets, '[' :: s =>
    match splitAtLast ']' s with
    | none => none
    | some (inner, behind) =>
      match trailingOffset (trimPtrExpr behind) with
      | none => none
      | some off => peel turns (offsets ++ [off]) (trimPtrExpr inner)
  | _, offsets, base => some ⟨base, offsets⟩

def parsePointerExpression (expr : Text) : Option PointerExpr :=
  let e := trimPtrExpr expr
  if e.head? = some '[' then peel e.length [] e else none

example : buildPointerExpression "game".toList [0x10, -8, Int64.minValue] =
    "[[[game]-8000000000000000]-8]+10".toList := by decide

example : parsePointerExpression "[[[game]-8000000000000000]-8]+10".toList =
    some ⟨"game".toList, [0x10, -8, Int64.minValue]⟩ := by decide

/-! ### Offsets -/

theorem hexDigits_foldl {s : Text} (hs : ∀ c ∈ s, ∃ d, digitValue c = some d ∧ d < 16) (val : ℕ) :
    hexDigits (UInt64.ofNat val) s =
      some (UInt64.ofNat (s.foldl (fun value c ↦ value * 16 + (digitValue c).getD 0) val)) := by
  induction s generalizing val with
  | nil => rfl
  | cons c rest ih =>
    obtain ⟨⟨d, hd, hlt⟩, hrest⟩ := List.forall_mem_cons.mp hs
    have hstep : UInt64.ofNat val * 16 + UInt64.ofNat d = UInt64.ofNat (val * 16 + d) := by
      rw [UInt64.ofNat_add, UInt64.ofNat_mul]
      rfl
    rw [hexDigits, hd]
    dsimp only
    rw [if_pos hlt, hstep, ih hrest, List.foldl_cons, hd, Option.getD_some]

theorem hexDigits_hex (n : ℕ) : hexDigits 0 (hex n) = some (UInt64.ofNat n) := by
  have hdigits : ∀ c ∈ hex n, ∃ d, digitValue c = some d ∧ d < 16 := by
    intro c hc
    obtain ⟨d, hd, rfl⟩ := isNumeral_of_mem (by decide) (by decide) hc
    exact ⟨d, digitValue_digitChar hd, hd⟩
  have hvalue := digitsValue_hex n
  unfold Expression.digitsValue at hvalue
  have hread := hexDigits_foldl hdigits 0
  rw [hvalue] at hread
  exact hread

theorem skipRadix_hex (n : ℕ) : skipRadix (hex n) = hex n := by
  unfold skipRadix
  split
  · next x rest heq =>
    have hx : x ∈ hex n := by rw [heq]; simp
    obtain ⟨-, -, -, hlower, hupper⟩ := (isNumeral_of_mem (by decide) (by decide) hx).plain
    rw [if_neg (not_or.mpr ⟨hlower, hupper⟩), heq]
  · rfl

/-- The digits behind a sign are read as the word they were written for. -/
theorem parseSignedHexOffset_hex (op : Char) (word : UInt64) (hop : isOperator op = true) :
    parseSignedHexOffset (op :: hex word.toNat) =
      some (if op = '-' then -word.toInt64 else word.toInt64) := by
  have hsign : takeSign (op :: hex word.toNat) = (decide (op = '-'), hex word.toNat) := by
    rcases (by simpa [isOperator] using hop : op = '+' ∨ op = '-') with rfl | rfl <;> rfl
  rw [parseSignedHexOffset, hsign]
  dsimp only
  rw [skipRadix_hex]
  split
  · next hnil => exact absurd hnil (hex_ne_nil _)
  · rw [hexDigits_hex, Option.map_some, UInt64.ofNat_toNat]
    simp only [decide_eq_true_eq]

/-- An offset is read back, the most negative one too. -/
theorem parseSignedHexOffset_offsetSuffix (off : Int64) :
    parseSignedHexOffset (offsetSuffix off) = some off := by
  unfold offsetSuffix
  split_ifs
  · rw [parseSignedHexOffset_hex '+' _ rfl, if_neg (by decide), Int64.toInt64_toUInt64]
  · rw [parseSignedHexOffset_hex '-' _ rfl, if_pos rfl, Int64.toInt64_toUInt64, Int64.neg_neg]

theorem offsetSuffix_eq (off : Int64) :
    offsetSuffix off = operator (decide (off < 0)) :: hex off.toInt.natAbs := by
  have hword : (off.toUInt64.toNat : ℤ) = off.toInt % 2 ^ 64 := by
    change (off.toBitVec.toNat : ℤ) = off.toBitVec.toInt % 2 ^ 64
    have := off.toBitVec.isLt
    rw [BitVec.toInt_eq_toNat_cond]
    split_ifs <;> omega
  have hneg : ((-off).toUInt64.toNat : ℤ) = -off.toInt % 2 ^ 64 := by
    have hbits : (-off).toUInt64.toNat = (2 ^ 64 - off.toUInt64.toNat) % 2 ^ 64 := BitVec.toNat_neg _
    have := off.toUInt64.toNat_lt
    omega
  have hlow := off.le_toInt
  have hhigh := off.toInt_lt
  unfold offsetSuffix
  split_ifs with hsign
  · have hnonneg : 0 ≤ off.toInt := Int64.le_iff_toInt_le.mp hsign
    have hmagnitude : off.toUInt64.toNat = off.toInt.natAbs := by omega
    rw [decide_eq_false (Int64.not_lt.mpr hsign), hmagnitude]
    rfl
  · have hminus : off < 0 := Int64.not_le.mp hsign
    have hnegative : off.toInt < 0 := Int64.lt_iff_toInt_lt.mp hminus
    have hmagnitude : (-off).toUInt64.toNat = off.toInt.natAbs := by omega
    rw [decide_eq_true hminus, hmagnitude]
    rfl

theorem hex_flat (n : ℕ) : Solid (hex n) ∧ '[' ∉ hex n ∧ ']' ∉ hex n := by
  have hplain : ∀ c ∈ hex n, isBlank c = false ∧ c ≠ '[' ∧ c ≠ ']' := by
    intro c hc
    obtain ⟨d, hd, rfl⟩ := isNumeral_of_mem (by decide) (by decide) hc
    interval_cases d <;> decide
  have hfirst := List.head_mem (hex_ne_nil n)
  have hlast := List.getLast_mem (hex_ne_nil n)
  refine ⟨⟨⟨_, ?_, (hplain _ hfirst).1⟩, _, ?_, (hplain _ hlast).1⟩, ?_, ?_⟩
  · rw [List.head?_eq_some_head]
  · rw [List.getLast?_eq_some_getLast]
  · exact fun h ↦ (hplain _ h).2.1 rfl
  · exact fun h ↦ (hplain _ h).2.2 rfl

theorem offsetSuffix_flat (off : Int64) :
    Solid (offsetSuffix off) ∧ '[' ∉ offsetSuffix off ∧ ']' ∉ offsetSuffix off := by
  have hop : ∀ minus, isBlank (operator minus) = false ∧ operator minus ≠ '[' ∧
      operator minus ≠ ']' := by
    decide
  obtain ⟨hblank, hopen, hclose⟩ := hop (decide (off < 0))
  obtain ⟨hdigits, hopenDigits, hcloseDigits⟩ := hex_flat off.toInt.natAbs
  obtain ⟨c, hlast, hc⟩ := hdigits.last
  rw [offsetSuffix_eq]
  refine ⟨⟨⟨_, rfl, hblank⟩, c, ?_, hc⟩, ?_, ?_⟩
  · rw [List.getLast?_cons_of_ne_nil hdigits.ne_nil, hlast]
  · exact fun hmem ↦ (List.mem_cons.mp hmem).elim (hopen ∘ Eq.symm) hopenDigits
  · exact fun hmem ↦ (List.mem_cons.mp hmem).elim (hclose ∘ Eq.symm) hcloseDigits

/-! ### Brackets -/

theorem splitAtLast_not_mem {mark : Char} {s : Text} (hs : mark ∉ s) : splitAtLast mark s = none := by
  induction s with
  | nil => rfl
  | cons c rest ih =>
    rw [List.mem_cons, not_or] at hs
    rw [splitAtLast, ih hs.2]
    exact if_neg (Ne.symm hs.1)

theorem splitAtLast_append {mark : Char} {behind : Text} (hbehind : mark ∉ behind) (front : Text) :
    splitAtLast mark (front ++ mark :: behind) = some (front, behind) := by
  induction front with
  | nil =>
    rw [List.nil_append, splitAtLast, splitAtLast_not_mem hbehind]
    exact if_pos rfl
  | cons c front ih => rw [List.cons_append, splitAtLast, ih]

theorem buildPointerExpression_cons (base : Text) (off : Int64) (offsets : List Int64) :
    buildPointerExpression base (off :: offsets) =
      '[' :: (buildPointerExpression base offsets ++ ']' :: offsetSuffix off) := rfl

theorem trim_bracket (inner : Text) (off : Int64) :
    trim ('[' :: (inner ++ ']' :: offsetSuffix off)) = '[' :: (inner ++ ']' :: offsetSuffix off) := by
  obtain ⟨hsolid, -, -⟩ := offsetSuffix_flat off
  obtain ⟨c, hlast, hblank⟩ := hsolid.last
  refine trim_solid ⟨⟨'[', rfl, rfl⟩, c, ?_, hblank⟩
  rw [← List.cons_append, List.getLast?_append, List.getLast?_cons_of_ne_nil hsolid.ne_nil, hlast]
  rfl

theorem length_le_buildPointerExpression (base : Text) (offsets : List Int64) :
    offsets.length ≤ (buildPointerExpression base offsets).length := by
  induction offsets with
  | nil => exact Nat.zero_le _
  | cons off offsets ih =>
    rw [buildPointerExpression_cons, List.length_cons, List.length_cons, List.length_append]
    omega

theorem mem_of_mem_trim {c : Char} {s : Text} (hc : c ∈ trim s) : c ∈ s := by
  rw [trim, List.mem_reverse] at hc
  have hdropped := (List.dropWhile_sublist _).subset hc
  rw [List.mem_reverse] at hdropped
  exact (List.dropWhile_sublist _).subset hdropped

/-- What is left of a text without brackets is the base. -/
theorem peel_base {base : Text} (hbase : '[' ∉ base) (turns : ℕ) (offsets : List Int64) :
    peel turns offsets (trim base) =
      if trim base = [] then none else some ⟨trim base, offsets⟩ := by
  cases htrim : trim base with
  | nil => rw [if_pos rfl, peel]
  | cons c rest =>
    have hc : c ≠ '[' := by
      rintro rfl
      exact hbase (mem_of_mem_trim (by rw [htrim]; exact List.mem_cons_self))
    rw [if_neg (List.cons_ne_nil c rest)]
    unfold peel
    split
    · next heq => cases heq
    · next heq => exact absurd (List.cons.inj heq).1 hc
    · next heq => exact absurd (List.cons.inj heq).1 hc
    · rfl

/-- A bracket gives its offset back and what is inside. -/
theorem peel_build {base : Text} (hbase : '[' ∉ base) {offsets : List Int64} {turns : ℕ}
    (hturns : offsets.length ≤ turns) (outer : List Int64) :
    peel turns outer (trim (buildPointerExpression base offsets)) =
      if trim base = [] then none else some ⟨trim base, outer ++ offsets⟩ := by
  induction offsets generalizing turns outer with
  | nil =>
    rw [List.append_nil]
    exact peel_base hbase turns outer
  | cons off offsets ih =>
    obtain ⟨turns, rfl⟩ : ∃ k, turns = k + 1 := ⟨turns - 1, by
      rw [List.length_cons] at hturns
      omega⟩
    obtain ⟨hsolid, -, hclose⟩ := offsetSuffix_flat off
    have hoffset : trailingOffset (trim (offsetSuffix off)) = some off := by
      rw [trim_solid hsolid, trailingOffset, if_neg hsolid.ne_nil, parseSignedHexOffset_offsetSuffix]
    rw [buildPointerExpression_cons, trim_bracket, peel, splitAtLast_append hclose]
    simp only [trimPtrExpr, hoffset]
    rw [ih (Nat.le_of_succ_le_succ hturns), List.append_assoc, List.singleton_append]

/-- The text of an entry is read back as its base, without the blanks around it, and its offsets. -/
theorem parsePointerExpression_build {base : Text} (hbase : '[' ∉ base) {offsets : List Int64}
    (hoffsets : offsets ≠ []) :
    parsePointerExpression (buildPointerExpression base offsets) =
      if trim base = [] then none else some ⟨trim base, offsets⟩ := by
  obtain ⟨off, rest, rfl⟩ := List.exists_cons_of_ne_nil hoffsets
  have htrim : trim (buildPointerExpression base (off :: rest)) =
      buildPointerExpression base (off :: rest) := trim_bracket _ off
  have hpeel := peel_build hbase (length_le_buildPointerExpression base (off :: rest)) []
  rw [htrim] at hpeel
  rw [parsePointerExpression, trimPtrExpr, htrim, if_pos (by rfl), hpeel, List.nil_append]

/-! ### The address parser -/

/-- The value of the digits of a magnitude. A single letter is a name first. -/
def magnitudeValue (parser : ExpressionParser) (magnitude : ℕ) : ℕ :=
  if 10 ≤ magnitude ∧ magnitude < 16 then (parser.nameAddress (hex magnitude)).getD magnitude
  else magnitude

/-- What a bracket adds for an offset. -/
def readOffset (parser : ExpressionParser) (off : Int64) : ℤ :=
  if off < 0 then -(magnitudeValue parser off.toInt.natAbs : ℤ)
  else magnitudeValue parser off.toInt.natAbs

section Values

variable {parser : ExpressionParser}

theorem two_le_length_hex {n : ℕ} (hn : 16 ≤ n) : 2 ≤ (hex n).length := by
  have hfront := List.length_pos_of_ne_nil (hex_ne_nil (n / 16))
  unfold hex at hfront ⊢
  rw [Nat.toDigits_eq_if (by decide), if_neg (not_lt.mpr hn), List.length_append,
    List.length_singleton]
  omega

/-- Digits without a mark are the number, but for a letter that is a name. -/
theorem resolveToken_hex {n : ℕ} (hn : n < sizeModulus) : parser.resolveToken (hex n) =
    magnitudeValue parser n := by
  have hplain : ∀ c ∈ hex n, c ≠ '#' ∧ c ≠ 'x' ∧ c ≠ 'X' := by
    intro c hc
    obtain ⟨d, hd, rfl⟩ := isNumeral_of_mem (by decide) (by decide) hc
    interval_cases d <;> decide
  have hhex : (hex n).all isHexDigit = true :=
    List.all_eq_true.mpr fun _ hc ↦ isHexDigit_of_mem_hex hc
  have hnumber : number 16 (hex n) = n := by
    have hread := stoull_toDigits (by decide) (by decide) hn (stops_nil 16)
    rw [List.append_nil] at hread
    rw [number, hex, hread]
    rfl
  have hletter : (2 ≤ (hex n).length ∨ (hex n).all Expression.isDigit = true) ↔ ¬(10 ≤ n ∧ n < 16) := by
    by_cases hlarge : 16 ≤ n
    · exact iff_of_true (Or.inl (two_le_length_hex hlarge)) (by omega)
    · have hsmall := Nat.lt_of_not_le hlarge
      interval_cases n <;> decide
  unfold resolveToken magnitudeValue
  split
  · next hnil => exact absurd hnil (hex_ne_nil n)
  · next hmark => exact absurd rfl (hplain '#' (by rw [hmark]; exact List.mem_cons_self)).1
  · next first rest _ hdigits =>
    have hmark : ¬(2 < (hex n).length ∧ first = '0' ∧
        (rest.head? = some 'x' ∨ rest.head? = some 'X')) := by
      rintro ⟨-, -, hx⟩
      obtain ⟨x, more, rfl⟩ : ∃ x more, rest = x :: more := by
        cases rest with
        | nil => simp at hx
        | cons x more => exact ⟨x, more, rfl⟩
      obtain ⟨-, hlower, hupper⟩ := hplain x (by rw [hdigits]; simp)
      simp [hlower, hupper] at hx
    rw [if_neg hmark]
    by_cases hname : 10 ≤ n ∧ n < 16
    · rw [if_neg fun h ↦ (hletter.mp h.2) hname, if_pos hname, if_pos hhex, hnumber]
      cases parser.nameAddress (hex n) <;> rfl
    · rw [if_pos ⟨hhex, hletter.mpr hname⟩, if_neg hname, hnumber]

/-- A text without operators and brackets is one term. -/
theorem parseImpl_flat {w : Text} (hw : Solid w) (hopen : '[' ∉ w) (hclose : ']' ∉ w)
    (hop : ∀ c ∈ w, isOperator c = false) (levels : ℕ) :
    parser.parseImpl (levels + 1) w = some (parser.resolveToken w % sizeModulus) := by
  obtain ⟨c, rest, rfl⟩ := List.exists_cons_of_ne_nil hw.ne_nil
  have hterm : nextTerm parser.modules true (c :: rest) = (c :: rest, []) := by
    unfold nextTerm
    rcases moduleLength_flat parser.modules hop with hwhole | hnone
    · dsimp only
      rw [hwhole, if_pos (by simp), List.take_length, List.drop_length]
    · rw [List.mem_cons, not_or] at hopen hclose
      have hrest : rest.any isOperator = false := by
        refine List.any_eq_false.mpr fun d hd ↦ ?_
        rw [hop d (List.mem_cons_of_mem _ hd)]
        exact Bool.false_ne_true
      have hscan := scanTerm_flat hopen.2 hclose.2 hrest false c []
      rw [List.append_nil, scanTerm, List.append_nil] at hscan
      dsimp only
      rw [hnone, if_neg (lt_irrefl 0), if_neg (Ne.symm hopen.1), Bool.not_true, hscan]
  have hhead : c ≠ '[' := fun h ↦ hopen (h ▸ List.mem_cons_self)
  rw [parseImpl_sum (trim_solid hw) hhead, List.length_cons, sumFrom, if_neg (List.cons_ne_nil c rest),
    hterm]
  dsimp only
  rw [trim_solid hw, if_neg (List.cons_ne_nil c rest), termValue, if_neg hopen]
  simp [accumulate]

theorem parseImpl_hex {n : ℕ} (hn : n < sizeModulus) (levels : ℕ) :
    parser.parseImpl (levels + 1) (hex n) = some (magnitudeValue parser n % sizeModulus) := by
  obtain ⟨hsolid, hopen, hclose⟩ := hex_flat n
  rw [← resolveToken_hex hn]
  exact parseImpl_flat hsolid hopen hclose (fun _ hc ↦ isOperator_of_mem_hex hc) levels

theorem scanTerm_append (bd : ℕ) (guarded : Bool) (previous : Char) (s : Text) :
    (scanTerm bd guarded previous s).1 ++ (scanTerm bd guarded previous s).2 = s := by
  induction s generalizing bd guarded previous with
  | nil => rfl
  | cons c rest ih =>
    rw [scanTerm]
    split_ifs
    · exact congrArg (c :: ·) (ih _ _ _)
    · exact congrArg (c :: ·) (ih _ _ _)
    · rfl
    · exact congrArg (c :: ·) (ih _ _ _)

theorem nextTerm_append (mods : List ModuleInfo) (atStart : Bool) (s : Text) :
    (nextTerm mods atStart s).1 ++ (nextTerm mods atStart s).2 = s := by
  unfold nextTerm
  dsimp only
  split_ifs
  · exact List.take_append_drop _ s
  · cases s with
    | nil => rfl
    | cons c rest => exact congrArg (c :: ·) (scanTerm_append _ _ _ _)

/-- A sum without brackets does not use the parser for brackets. -/
theorem sumFrom_congr (first second : Text → Option ℕ) {s : Text} (hs : '[' ∉ s) (turns : ℕ)
    (atStart : Bool) (result : ℕ) (subtract : Bool) :
    parser.sumFrom first turns atStart result subtract s =
      parser.sumFrom second turns atStart result subtract s := by
  induction turns generalizing s atStart result subtract with
  | zero => rfl
  | succ turns ih =>
    have hparts := nextTerm_append parser.modules atStart s
    cases hterm : nextTerm parser.modules atStart s with | mk term rest =>
    rw [hterm] at hparts
    have hnone : '[' ∉ trim term := fun h ↦
      hs (hparts ▸ List.mem_append_left _ (mem_of_mem_trim h))
    rw [sumFrom, sumFrom, hterm]
    simp only [termValue, if_neg hnone]
    cases rest with
    | nil => rfl
    | cons op rest =>
      have hrest : '[' ∉ rest := fun h ↦
        hs (hparts ▸ List.mem_append_right _ (List.mem_cons_of_mem _ h))
      simp only [ih hrest]

/-- A text without brackets has its value at every level. -/
theorem parseImpl_level {base : Text} (hbase : '[' ∉ base) (levels others : ℕ) :
    parser.parseImpl (levels + 1) base = parser.parseImpl (others + 1) base := by
  cases htrim : trim base with
  | nil => rw [parseImpl, parseImpl, htrim]
  | cons c rest =>
    have hnone : '[' ∉ c :: rest := fun h ↦ hbase (mem_of_mem_trim (htrim ▸ h))
    have hc : c ≠ '[' := fun h ↦ hnone (h ▸ List.mem_cons_self)
    rw [parseImpl_sum htrim hc, parseImpl_sum htrim hc, sumFrom_congr _ _ hnone]

theorem accumulate_readOffset (ptr : ℕ) (off : Int64) :
    accumulate ptr (decide (off < 0)) (magnitudeValue parser off.toInt.natAbs % sizeModulus) =
      wordOf (ptr + readOffset parser off) := by
  unfold readOffset accumulate wordOf sizeModulus
  by_cases hminus : off < 0
  · rw [decide_eq_true hminus, if_pos rfl, if_pos hminus]
    omega
  · rw [decide_eq_false hminus, if_neg Bool.false_ne_true, if_neg hminus]
    omega

/-- A bracket reads the pointer at the address inside and adds its offset. -/
theorem parseImpl_bracket_offsetSuffix {inner : Text} (hinner : Balanced inner) (off : Int64)
    (levels : ℕ) :
    parser.parseImpl (levels + 1) ('[' :: (inner ++ ']' :: offsetSuffix off)) =
      (parser.parseImpl levels inner).bind fun address ↦
        (parser.readAt address).bind fun ptr ↦ some (wordOf (ptr + readOffset parser off)) := by
  obtain ⟨hsolid, -, -⟩ := offsetSuffix_flat off
  rw [parseImpl_bracket (trim_bracket inner off) (closing_inner hinner _)]
  cases levels with
  | zero => rfl
  | succ levels =>
    have hop : isOperator (operator (decide (off < 0))) = true := by
      cases decide (off < 0) <;> rfl
    have hminus : decide (operator (decide (off < 0)) = '-') = decide (off < 0) := by
      cases decide (off < 0) <;> rfl
    have hlow := off.le_toInt
    have hhigh := off.toInt_lt
    have hmagnitude : off.toInt.natAbs < sizeModulus := by
      unfold sizeModulus
      omega
    have htrim : trim (offsetSuffix off) =
        operator (decide (off < 0)) :: hex off.toInt.natAbs := by
      rw [trim_solid hsolid, offsetSuffix_eq]
    simp only [afterBracket_offset htrim hop, parseImpl_hex hmagnitude, Option.map_some, hminus,
      accumulate_readOffset]

theorem balanced_buildPointerExpression {base : Text} (hbase : Balanced base)
    (offsets : List Int64) : Balanced (buildPointerExpression base offsets) := by
  induction offsets with
  | nil => exact hbase
  | cons off offsets ih =>
    obtain ⟨-, hopen, hclose⟩ := offsetSuffix_flat off
    exact .bracket ih (.of_not_mem hopen hclose)

/-- The brackets walk the offsets from the innermost on. -/
theorem parseImpl_build {base : Text} (hbase : Balanced base) (offsets : List Int64) (levels : ℕ) :
    parser.parseImpl (levels + offsets.length) (buildPointerExpression base offsets) =
      (parser.parseImpl levels base).bind fun address ↦
        walk parser.readAt address (offsets.reverse.map (readOffset parser)) := by
  induction offsets with
  | nil => simp [buildPointerExpression, walk]
  | cons off offsets ih =>
    rw [List.length_cons, ← Nat.add_assoc, buildPointerExpression_cons,
      parseImpl_bracket_offsetSuffix (balanced_buildPointerExpression hbase offsets), ih,
      Option.bind_assoc]
    simp only [List.reverse_cons, List.map_append, List.map_cons, List.map_nil, walk_append, walk]

/-- Brackets that are nested deeper than there are levels have no value. -/
theorem parseImpl_deep {base : Text} (hbase : Balanced base) {offsets : List Int64} {levels : ℕ}
    (hdeep : levels ≤ offsets.length) :
    parser.parseImpl levels (buildPointerExpression base offsets) = none := by
  induction offsets generalizing levels with
  | nil =>
    obtain rfl : levels = 0 := Nat.le_zero.mp hdeep
    rfl
  | cons off offsets ih =>
    cases levels with
    | zero => rfl
    | succ levels =>
      rw [buildPointerExpression_cons,
        parseImpl_bracket_offsetSuffix (balanced_buildPointerExpression hbase offsets),
        ih (Nat.le_of_succ_le_succ hdeep)]
      rfl

end Values

/-- For a base without brackets, the text of an entry is read back as the base, without the blanks
around it, and the offsets, unless there is only blank text for a base. Its address starts at the
value of the base and is the pointer there with an offset added for each bracket, up to the depth of
nesting that the address parser follows. -/
theorem pointerExpression_read (parser : ExpressionParser) (base : Text) (offsets : List Int64)
    (hbase : '[' ∉ base ∧ ']' ∉ base) (hoffsets : offsets ≠ []) :
    parsePointerExpression (buildPointerExpression base offsets) =
        (if trimPtrExpr base = [] then none else some ⟨trimPtrExpr base, offsets⟩) ∧
      parser.parse (buildPointerExpression base offsets) =
        if offsets.length ≤ ExpressionParser.kMaxDepth then
          (parser.parse base).bind fun address ↦
            walk parser.readAt address (offsets.reverse.map (readOffset parser))
        else none := by
  have hbalanced : Balanced base := .of_not_mem hbase.1 hbase.2
  refine ⟨parsePointerExpression_build hbase.1 hoffsets, ?_⟩
  rw [parse, parse]
  split_ifs with hdepth
  · obtain ⟨levels, hlevels⟩ := Nat.exists_eq_add_of_le hdepth
    have hsplit : ExpressionParser.kMaxDepth + 1 = levels + 1 + offsets.length := by omega
    rw [parseImpl_level hbase.1 ExpressionParser.kMaxDepth levels, hsplit, parseImpl_build hbalanced]
  · exact parseImpl_deep hbalanced (Nat.lt_of_not_le hdepth)

/-- A process whose memory is zero, with a symbol `a`. -/
def zeroMemory : ExpressionParser where
  proc := some {
    modules := []
    handle := {
      memory := fun _ ↦ some 0
      queryRegions := []
      pagemap := fun _ ↦ none
      supportsConcurrentReads := true } }
  resolver := some fun name ↦ if name = ['a'] then 0x400 else 0

/-- `[[1000]-8]+a`. -/
theorem pointerExpression_read_letter :
    parsePointerExpression (buildPointerExpression "1000".toList [10, -8]) =
        some ⟨"1000".toList, [10, -8]⟩ ∧
      zeroMemory.parse (buildPointerExpression "1000".toList [10, -8]) = some 0x400 := by
  have hread := pointerExpression_read zeroMemory "1000".toList [10, -8] (by decide) (by decide)
  exact ⟨hread.1.trans (by decide), hread.2.trans (by decide)⟩

/-- An empty base is no entry, and the blanks of a base are lost. A letter that is a symbol is not
the offset, and brackets nested too deep have no value. -/
theorem pointerExpression_inexact :
    parsePointerExpression (buildPointerExpression [] [0]) = none ∧
      parsePointerExpression (buildPointerExpression " game".toList [0]) =
        some ⟨"game".toList, [0]⟩ ∧
      zeroMemory.parse (buildPointerExpression "1000".toList [10]) ≠
        (zeroMemory.parse "1000".toList).bind (walk zeroMemory.readAt · [10]) ∧
      zeroMemory.parse (buildPointerExpression "1000".toList (List.replicate 65 0)) ≠
        (zeroMemory.parse "1000".toList).bind (walk zeroMemory.readAt · (List.replicate 65 0)) := by
  decide +kernel

end Cecore.Table
