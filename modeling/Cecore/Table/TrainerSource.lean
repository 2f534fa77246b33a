import Cecore.Table.Trainer
import Mathlib.Data.List.Chain

/-!
# What the texts of a table become in a trainer

The literal of a text has the bytes of the text exactly if no byte written as a number stands in
front of a hexadecimal digit (`unquote_cString_iff`). Outside of the literals the tokens of the
source are those of the fixed code, but for an author whose text ends in a backslash; from the
forty-fourth toggle on, the fallback keys run into marks (`encoded_iff`).
-/

set_option autoImplicit false
set_option relaxedAutoImplicit false

namespace Cecore.Table.Trainer

open Library.CLexer Library.CPhase Library.CTemplate

/-! ### The bytes of a literal -/

/-- No character written as a number stands in front of a digit that the number would take in. -/
def Clean (text : Text) : Prop :=
  (text.map asByte).IsChain fun c d ↦ HexEscaped c → hexDigit d = none

theorem hexDigit_digitChar {d : ℕ} (hd : d < 16) : hexDigit (Nat.digitChar d) = some d := by
  interval_cases d <;> decide

/-- A simple escape sequence. -/
theorem foldl_escape {reading : Reading} {values : List ℕ} {e : Char} {value : ℕ}
    (hback : readNext doubleQuote reading backslash = readPlain doubleQuote values backslash)
    (he : simpleEscape e = some value) :
    [backslash, e].foldl (readNext doubleQuote) reading = .body (values ++ [value]) := by
  have hescape : readPlain doubleQuote values backslash = .escape values := rfl
  rw [List.foldl_cons, hback, hescape, List.foldl_cons, List.foldl_nil, readNext, he]

/-- A character written as a number. -/
theorem foldl_hexByte {reading : Reading} {values : List ℕ} {n : ℕ} (hn : n < 256)
    (hback : readNext doubleQuote reading backslash = readPlain doubleQuote values backslash) :
    ([backslash, 'x'] ++ hexByte n).foldl (readNext doubleQuote) reading = .hex values n := by
  have hescape : readPlain doubleQuote values backslash = .escape values := rfl
  have hstart : readNext doubleQuote (.escape values) 'x' = .hexStart values := rfl
  have hfirst : readNext doubleQuote (.hexStart values) (Nat.digitChar (n / 16)) =
      .hex values (n / 16) := by
    rw [readNext, hexDigit_digitChar (by omega)]
  have hsecond : readNext doubleQuote (.hex values (n / 16)) (Nat.digitChar (n % 16)) =
      .hex values n := by
    rw [readNext, hexDigit_digitChar (by omega)]
    dsimp only
    rw [Nat.div_add_mod']
  rw [List.foldl_append, List.foldl_cons, hback, hescape, List.foldl_cons, hstart, List.foldl_nil, hexByte,
    List.foldl_cons, hfirst, List.foldl_cons, hsecond, List.foldl_nil]

/-- The ways in which a byte is written. -/
theorem cStringChar_cases (c : Char) :
    (¬HexEscaped c ∧ ∃ e, cStringChar c = [backslash, e] ∧ simpleEscape e = some c.toNat) ∨
      (HexEscaped c ∧ cStringChar c = [backslash, 'x'] ++ hexByte c.toNat) ∨
      (¬HexEscaped c ∧ cStringChar c = [c] ∧ c ≠ doubleQuote ∧ c ≠ '\n' ∧ c ≠ backslash) := by
  unfold cStringChar HexEscaped
  split_ifs with hback hmark hnewline hreturn htab hrange
  · exact .inl ⟨fun h ↦ h.1 hback, _, rfl, by subst hback; decide⟩
  · exact .inl ⟨fun h ↦ h.2.1 hmark, _, rfl, by subst hmark; decide⟩
  · exact .inl ⟨fun h ↦ h.2.2.1 hnewline, _, rfl, hnewline ▸ rfl⟩
  · exact .inl ⟨fun h ↦ h.2.2.2.1 hreturn, _, rfl, hreturn ▸ rfl⟩
  · exact .inl ⟨fun h ↦ h.2.2.2.2.1 htab, _, rfl, htab ▸ rfl⟩
  · exact .inr (.inl ⟨⟨hback, hmark, hnewline, hreturn, htab, hrange⟩, rfl⟩)
  · exact .inr (.inr ⟨fun h ↦ hrange h.2.2.2.2.2, rfl, hmark, hnewline, hback⟩)

theorem readPlain_raw {c : Char} (hc : c ≠ doubleQuote ∧ c ≠ '\n' ∧ c ≠ backslash) (values : List ℕ) :
    readPlain doubleQuote values c = .body (values ++ [c.toNat]) := by
  rw [readPlain, if_neg hc.1, if_neg hc.2.1, if_neg hc.2.2]

/-- A byte adds its value, where it does not go on with a number. -/
theorem stands_cStringChar {reading : Reading} {values : List ℕ} {pending : Bool} {c : Char}
    (h : reading.Stands values pending) (hc : c.toNat < 256)
    (hpending : pending = true → hexDigit c = none) :
    ((cStringChar c).foldl (readNext doubleQuote) reading).Stands (values ++ [c.toNat])
      (decide (HexEscaped c)) := by
  have hback := h.next (c := backslash) (fun _ ↦ by decide) doubleQuote
  rcases cStringChar_cases c with ⟨hraw, e, hwritten, he⟩ | ⟨hescaped, hwritten⟩ |
    ⟨hraw, hwritten, hplain⟩
  · rw [hwritten, foldl_escape hback he, decide_eq_false hraw]
    rfl
  · rw [hwritten, foldl_hexByte hc hback, decide_eq_true hescaped]
    exact ⟨values, c.toNat, rfl, by omega, rfl⟩
  · rw [hwritten, List.foldl_cons, List.foldl_nil, h.next hpending, readPlain_raw hplain,
      decide_eq_false hraw]
    rfl

theorem stands_flatMap {bytes : List Char} (hbytes : ∀ c ∈ bytes, c.toNat < 256)
    (hclean : bytes.IsChain fun c d ↦ HexEscaped c → hexDigit d = none) {reading : Reading}
    {values : List ℕ} {pending : Bool} (h : reading.Stands values pending)
    (hpending : pending = true → ∀ d ∈ bytes.head?, hexDigit d = none) :
    ∃ pending, ((bytes.flatMap cStringChar).foldl (readNext doubleQuote) reading).Stands
      (values ++ bytes.map Char.toNat) pending := by
  induction bytes generalizing reading values pending with
  | nil => exact ⟨pending, by simpa using h⟩
  | cons c bytes ih =>
    have hc := stands_cStringChar h (hbytes c List.mem_cons_self) fun hp ↦ hpending hp c rfl
    have hnext : decide (HexEscaped c) = true → ∀ d ∈ bytes.head?, hexDigit d = none := by
      intro hescaped d hd
      cases bytes with
      | nil => cases hd
      | cons b bytes =>
        obtain rfl := Option.some.inj hd
        exact (List.isChain_cons_cons.mp hclean).1 (of_decide_eq_true hescaped)
    obtain ⟨last, hlast⟩ := ih
      (fun d hmem ↦ hbytes d (List.mem_cons_of_mem c hmem)) hclean.tail hc hnext
    refine ⟨last, ?_⟩
    rw [List.flatMap_cons, List.foldl_append, List.map_cons]
    rwa [List.append_assoc, List.singleton_append] at hlast

/-- A byte adds one value at most. -/
theorem upto_cStringChar {reading : Reading} {count : ℕ} {c : Char} (h : reading.Upto count)
    (hc : c.toNat < 256) :
    ((cStringChar c).foldl (readNext doubleQuote) reading).Upto (count + 1) := by
  have hbad : ∀ {d : Char} {rest : Text}, readNext doubleQuote reading d = .bad →
      ((d :: rest).foldl (readNext doubleQuote) reading).Upto (count + 1) := by
    intro d rest hnext
    rw [List.foldl_cons, hnext, foldl_bad]
    exact .inl rfl
  rcases cStringChar_cases c with ⟨-, e, hwritten, he⟩ | ⟨-, hwritten⟩ | ⟨-, hwritten, hplain⟩
  · rw [hwritten]
    rcases h.next doubleQuote backslash with hnext | ⟨values, hcount, hnext⟩ | ⟨hdigit, -⟩
    · exact hbad hnext
    · rw [foldl_escape hnext he]
      exact .inr (.inl ⟨_, rfl, by simpa using hcount⟩)
    · exact absurd hdigit (by decide)
  · rw [hwritten]
    rcases h.next doubleQuote backslash with hnext | ⟨values, hcount, hnext⟩ | ⟨hdigit, -⟩
    · exact hbad hnext
    · rw [foldl_hexByte hc hnext]
      exact .inr (.inr ⟨values, _, rfl, by omega⟩)
    · exact absurd hdigit (by decide)
  · rw [hwritten, List.foldl_cons, List.foldl_nil]
    rcases h.next doubleQuote c with hnext | ⟨values, hcount, hnext⟩ | ⟨-, values, value, hcount, hnext⟩
    · exact .inl hnext
    · rw [hnext, readPlain_raw hplain]
      exact .inr (.inl ⟨_, rfl, by simpa using hcount⟩)
    · exact .inr (.inr ⟨values, value, hnext, by omega⟩)

theorem upto_flatMap {bytes : List Char} (hbytes : ∀ c ∈ bytes, c.toNat < 256) {reading : Reading}
    {count : ℕ} (h : reading.Upto count) :
    ((bytes.flatMap cStringChar).foldl (readNext doubleQuote) reading).Upto (count + bytes.length) := by
  induction bytes generalizing reading count with
  | nil => exact h
  | cons c bytes ih =>
    have hrest := ih (fun d hmem ↦ hbytes d (List.mem_cons_of_mem c hmem))
      (upto_cStringChar h (hbytes c List.mem_cons_self))
    rw [List.flatMap_cons, List.foldl_append, List.length_cons]
    exact hrest.mono (by omega)

theorem toNat_of_hexDigit {c : Char} (h : (hexDigit c).isSome) : 48 ≤ c.toNat ∧ c.toNat ≤ 102 := by
  have hle : ∀ {a b : Char}, a ≤ b → a.toNat ≤ b.toNat := fun h ↦ UInt32.le_iff_toNat_le.mp h
  have hvalues : '0'.toNat = 48 ∧ '9'.toNat = 57 ∧ 'a'.toNat = 97 ∧ 'f'.toNat = 102 ∧ 'A'.toNat = 65 ∧
      'F'.toNat = 70 := by decide
  unfold hexDigit at h
  split_ifs at h with hdecimal hlower hupper
  · have := hle hdecimal.1
    have := hle hdecimal.2
    omega
  · have := hle hlower.1
    have := hle hlower.2
    omega
  · have := hle hupper.1
    have := hle hupper.2
    omega
  · cases h

/-- A digit is written as it is. -/
theorem cStringChar_of_hexDigit {c : Char} (h : (hexDigit c).isSome) : cStringChar c = [c] := by
  have hrange := toNat_of_hexDigit h
  have hne : ∀ mark : Char, (hexDigit mark).isSome = false → c ≠ mark := by
    rintro mark hmark rfl
    rw [h] at hmark
    cases hmark
  unfold cStringChar
  rw [if_neg (hne backslash (by decide)), if_neg (hne doubleQuote (by decide)),
    if_neg (hne '\n' (by decide)), if_neg (hne '\r' (by decide)), if_neg (hne '\t' (by decide)),
    if_neg (by omega)]

/-- A digit behind a character written as a number adds nothing. -/
theorem upto_swallowed {reading : Reading} {count : ℕ} {c d : Char} (h : reading.Upto count)
    (hc : c.toNat < 256) (hescaped : HexEscaped c) (hdigit : (hexDigit d).isSome) :
    ((cStringChar c ++ cStringChar d).foldl (readNext doubleQuote) reading).Upto (count + 1) := by
  have hwritten : cStringChar c = [backslash, 'x'] ++ hexByte c.toNat := by
    rcases cStringChar_cases c with ⟨hraw, -⟩ | ⟨-, hwritten⟩ | ⟨hraw, -⟩
    · exact absurd hescaped hraw
    · exact hwritten
    · exact absurd hescaped hraw
  obtain ⟨digit, hvalue⟩ := Option.isSome_iff_exists.mp hdigit
  rw [List.foldl_append, hwritten, cStringChar_of_hexDigit hdigit]
  rcases h.next doubleQuote backslash with hnext | ⟨values, hcount, hnext⟩ | ⟨hback, -⟩
  · have hfirst : ([backslash, 'x'] ++ hexByte c.toNat).foldl (readNext doubleQuote) reading = .bad := by
      rw [List.cons_append, List.foldl_cons, hnext, foldl_bad]
    rw [hfirst, foldl_bad]
    exact .inl rfl
  · rw [foldl_hexByte hc hnext, List.foldl_cons, List.foldl_nil, readNext, hvalue]
    exact .inr (.inr ⟨values, _, rfl, by omega⟩)
  · exact absurd hback (by decide)

theorem upto_of_not_clean {bytes : List Char} (hbytes : ∀ c ∈ bytes, c.toNat < 256)
    (hclean : ¬bytes.IsChain fun c d ↦ HexEscaped c → hexDigit d = none) {reading : Reading} {count : ℕ}
    (h : reading.Upto count) :
    ∃ fewer < count + bytes.length,
      ((bytes.flatMap cStringChar).foldl (readNext doubleQuote) reading).Upto fewer := by
  induction bytes generalizing reading count with
  | nil => exact absurd .nil hclean
  | cons c bytes ih =>
    have hrest : ∀ d ∈ bytes, d.toNat < 256 := fun d hmem ↦ hbytes d (List.mem_cons_of_mem c hmem)
    have hc := hbytes c List.mem_cons_self
    cases bytes with
    | nil => exact absurd (.singleton c) hclean
    | cons d bytes =>
      by_cases hpair : HexEscaped c → hexDigit d = none
      · have htail : ¬(d :: bytes).IsChain fun c d ↦ HexEscaped c → hexDigit d = none :=
          fun htail ↦ hclean (List.isChain_cons_cons.mpr ⟨hpair, htail⟩)
        obtain ⟨fewer, hlt, hupto⟩ := ih hrest htail (upto_cStringChar h hc)
        refine ⟨fewer, by rw [List.length_cons]; omega, ?_⟩
        rwa [List.flatMap_cons, List.foldl_append]
      · obtain ⟨hescaped, hdigit⟩ := Classical.not_imp.mp hpair
        have hupto := upto_flatMap (fun e hmem ↦ hrest e (List.mem_cons_of_mem d hmem))
          (upto_swallowed h hc hescaped (Option.isSome_iff_ne_none.mpr hdigit))
        refine ⟨count + 1 + bytes.length, by simp only [List.length_cons]; omega, ?_⟩
        rwa [List.flatMap_cons, List.flatMap_cons, ← List.append_assoc, List.foldl_append]

/-- The literal of a text has the bytes of the text as its values exactly if the text is clean. -/
theorem unquote_cString_iff (text : Text) :
    unquote doubleQuote (cString text) = some (text.map fun c ↦ (byteOf c).toNat) ↔ Clean text := by
  have hbytes : ∀ c ∈ text.map asByte, c.toNat < 256 := by
    intro c hmem
    obtain ⟨d, -, rfl⟩ := List.mem_map.mp hmem
    exact toNat_asByte d ▸ (byteOf d).toNat_lt
  have hvalues : (text.map asByte).map Char.toNat = text.map fun c ↦ (byteOf c).toNat := by
    rw [List.map_map]
    exact List.map_congr_left fun c _ ↦ toNat_asByte c
  rw [cString, unquote, List.foldl_append, List.foldl_cons, List.foldl_nil]
  constructor
  · intro h
    by_contra hclean
    have hstart : (Reading.body []).Upto 0 := .inr (.inl ⟨[], rfl, le_rfl⟩)
    obtain ⟨fewer, hlt, hupto⟩ := upto_of_not_clean hbytes hclean hstart
    rw [← cStringBody] at hupto
    rcases hupto.next doubleQuote doubleQuote with hnext | ⟨values, hcount, hnext⟩ | ⟨hdigit, -⟩
    · rw [hnext] at h
      cases h
    · have hclose : readPlain doubleQuote values doubleQuote = .closed values := rfl
      rw [hnext, hclose] at h
      dsimp only at h
      rw [if_pos rfl] at h
      have hlength := congrArg List.length (Option.some.inj h)
      simp only [List.length_map] at hlength hlt
      omega
    · exact absurd hdigit (by decide)
  · intro hclean
    have hstart : (Reading.body []).Stands [] false := rfl
    obtain ⟨pending, hstands⟩ := stands_flatMap hbytes hclean hstart fun h ↦ Bool.noConfusion h
    have hclose : readPlain doubleQuote (text.map fun c ↦ (byteOf c).toNat) doubleQuote =
        .closed (text.map fun c ↦ (byteOf c).toNat) := rfl
    rw [List.nil_append, hvalues] at hstands
    rw [cStringBody, hstands.next fun _ ↦ by decide, hclose]
    exact if_pos rfl

/-! ### The lines -/

/-- The texts that are written as literals. -/
def writtenTexts (table : CheatTable) : List Text :=
  table.gameName :: table.luaScript ::
    ((embeddedScripts table).flatMap fun e ↦ [e.description, e.luaScript, e.autoAsmScript]) ++
    (toggledEntries table).flatMap fun (e, _) ↦ [e.hotkeyKeys, e.description]

/-- The pieces that the program has. -/
def Allowed (table : CheatTable) : Piece → Prop
  | .code _ => True
  | .literal text => text ∈ writtenTexts table
  | .character c => c = 'x' ∨ c = ' ' ∨ ∃ keyIdx < (toggledEntries table).length, c = fallbackKey keyIdx
  | .comment _ => False

@[simp] theorem allowed_code (table : CheatTable) (text : Text) : Allowed table (.code text) := trivial

@[simp] theorem allowed_fixed (table : CheatTable) (text : String) : Allowed table
  (code text) := trivial

@[simp] theorem allowed_literal (table : CheatTable) (text : Text) :
    Allowed table (.literal text) ↔ text ∈ writtenTexts table := Iff.rfl

@[simp] theorem allowed_toggle (table : CheatTable) :
    Allowed table (.character 'x') ∧ Allowed table (.character ' ') := ⟨.inl rfl, .inr (.inl rfl)⟩

theorem mem_writtenTexts_table (table : CheatTable) :
    table.gameName ∈ writtenTexts table ∧ table.luaScript ∈ writtenTexts table := by
  simp [writtenTexts]

/-- A line of the program. -/
def Sound (table : CheatTable) (line : Line) : Prop :=
  IsLine line = true ∧ ∀ piece ∈ line, Allowed table piece

theorem sound_of_fixed {lines : List Line} (h : Fixed lines) (table : CheatTable) :
    ∀ line ∈ lines, Sound table line := by
  intro line hmem
  obtain ⟨hline, hcode⟩ := h line hmem
  refine ⟨hline, fun piece hpiece ↦ ?_⟩
  have hpiece := hcode piece hpiece
  cases piece with
  | code text => trivial
  | literal text => cases hpiece
  | character c => cases hpiece
  | comment text => cases hpiece

theorem fixed_includeLines : Fixed includeLines := by
  unfold includeLines code
  repeat rw [String.toList_ofList]
  decide

theorem fixed_helperLines : Fixed helperLines := by
  unfold helperLines code
  repeat rw [String.toList_ofList]
  decide

theorem ordinary_numeral {c : Char} (h : IsNumeral c) : Ordinary c ∧ isWordChar c = true := by
  obtain ⟨d, hd, rfl⟩ := h
  interval_cases d <;> decide

theorem ordinary_decimal (n : ℕ) : ∀ c ∈ decimal n, Ordinary c ∧ isWordChar c = true :=
  fun _ hmem ↦ ordinary_numeral (isNumeral_of_mem (by decide) (by decide) hmem)

theorem ordinary_hex (n : ℕ) : ∀ c ∈ hex n, Ordinary c ∧ isWordChar c = true :=
  fun _ hmem ↦ ordinary_numeral (isNumeral_of_mem (by decide) (by decide) hmem)

theorem ordinary_printInt (n : ℤ) : ∀ c ∈ printInt n, Ordinary c := by
  unfold printInt
  split_ifs
  · exact List.forall_mem_cons.mpr ⟨by decide, fun c hmem ↦ (ordinary_decimal _ c hmem).1⟩
  · exact fun c hmem ↦ (ordinary_decimal _ c hmem).1

theorem ordinary_writeBody {type literal size : Text} (htype : ∀ c ∈ type, Ordinary c)
    (hliteral : ∀ c ∈ literal, Ordinary c) (hsize : ∀ c ∈ size, Ordinary c) (address : ℕ) :
    ∀ c ∈ writeBody type literal address size, Ordinary c := by
  have hfixed : (∀ c ∈ " v = ".toList, Ordinary c) ∧ (∀ c ∈ "; wpm((void*)0x".toList, Ordinary c) ∧
      (∀ c ∈ ", &v, ".toList, Ordinary c) ∧ ∀ c ∈ ");".toList, Ordinary c := by
    repeat rw [String.toList_ofList]
    decide
  unfold writeBody
  simp only [List.forall_mem_append]
  exact ⟨⟨⟨⟨⟨⟨⟨htype, hfixed.1⟩, hliteral⟩, hfixed.2.1⟩, fun c hmem ↦ (ordinary_hex _ c hmem).1⟩,
    hfixed.2.2.1⟩, hsize⟩, hfixed.2.2.2⟩

theorem ordinary_toChars {format : FloatFormat} {value : Text} {bits : ℕ}
    (h : fullyFinite format value = some bits) : ∀ c ∈ format.toChars bits, Ordinary c := by
  have hfinite : format.isFinite bits := by
    unfold fullyFinite at h
    split at h
    · cases h
    · split_ifs at h with hall
      exact Option.some.inj h ▸ hall.2
  have hnumeral : ∀ c ∈ ['0', '1', '2', '3', '4', '5', '6', '7', '8', '9', '.', 'e', '+', '-'],
      Ordinary c := by decide
  exact fun c hmem ↦ hnumeral c (format.toChars_numeral bits hfinite c hmem)

theorem ordinary_suffix {literal suffix : Text} (hliteral : ∀ c ∈ literal, Ordinary c)
    (hsuffix : ∀ c ∈ suffix, Ordinary c) : ∀ c ∈ literal ++ suffix, Ordinary c :=
  List.forall_mem_append.mpr ⟨hliteral, hsuffix⟩

theorem ordinary_freezeWriteBody {floats : FloatFormats} {e : CheatEntry} {body : Text}
    (h : freezeWriteBody floats e = some body) : ∀ c ∈ body, Ordinary c := by
  have htypes : (∀ c ∈ "uint8_t".toList, Ordinary c) ∧ (∀ c ∈ "int16_t".toList, Ordinary c) ∧
      (∀ c ∈ "int32_t".toList, Ordinary c) ∧ (∀ c ∈ "int64_t".toList, Ordinary c) ∧
      (∀ c ∈ "float".toList, Ordinary c) ∧ ∀ c ∈ "double".toList, Ordinary c := by
    repeat rw [String.toList_ofList]
    decide
  obtain ⟨hbyte, hshort, hint, hlong, hfloat, hdouble⟩ := htypes
  unfold freezeWriteBody at h
  split_ifs at h
  split at h
  · obtain ⟨v, -, h⟩ := Option.bind_eq_some_iff.mp h
    split_ifs at h
    exact Option.some.inj h ▸ ordinary_writeBody hbyte
      (ordinary_suffix (fun c hmem ↦ (ordinary_decimal _ c hmem).1) (by decide)) (by decide) _
  · obtain ⟨v, -, h⟩ := Option.bind_eq_some_iff.mp h
    split_ifs at h
    exact Option.some.inj h ▸ ordinary_writeBody hshort (ordinary_printInt _) (by decide) _
  · obtain ⟨v, -, h⟩ := Option.bind_eq_some_iff.mp h
    split_ifs at h
    exact Option.some.inj h ▸ ordinary_writeBody hint (ordinary_printInt _) (by decide) _
  · obtain ⟨v, -, rfl⟩ := Option.map_eq_some_iff.mp h
    exact ordinary_writeBody hlong (ordinary_suffix (ordinary_printInt _) (by decide)) (by decide) _
  · obtain ⟨v, -, rfl⟩ := Option.map_eq_some_iff.mp h
    exact ordinary_writeBody hlong (ordinary_suffix (ordinary_printInt _) (by decide)) (by decide) _
  · obtain ⟨bits, hbits, rfl⟩ := Option.map_eq_some_iff.mp h
    have hlit := ordinary_toChars hbits
    refine ordinary_writeBody hfloat (ordinary_suffix ?_ (by decide)) (by decide) _
    split_ifs
    · exact hlit
    · exact ordinary_suffix hlit (by decide)
  · obtain ⟨bits, hbits, rfl⟩ := Option.map_eq_some_iff.mp h
    exact ordinary_writeBody hdouble (ordinary_toChars hbits) (by decide) _
  · cases h

/-- Lines of ordinary code. -/
theorem sound_of_ordinary {line : Line}
    (h : ∀ piece ∈ line, ∃ text, piece = .code text ∧ ∀ c ∈ text, Ordinary c) (table : CheatTable) :
    Sound table line := by
  refine ⟨isLine_of_ordinary h, fun piece hmem ↦ ?_⟩
  obtain ⟨text, rfl, -⟩ := h piece hmem
  trivial

/-- Code around the number of an entry. -/
theorem ordinary_code {text : String} {chars : List Char} (htext : text = String.ofList chars)
    (h : ∀ c ∈ chars, Ordinary c) : ∃ other, code text = .code other ∧ ∀ c ∈ other, Ordinary c :=
  ⟨text.toList, rfl, by rwa [htext, String.toList_ofList]⟩

theorem ordinary_place (i : ℕ) :
    ∃ text, Piece.code (decimal i) = .code text ∧ ∀ c ∈ text, Ordinary c :=
  ⟨decimal i, rfl, fun c hmem ↦ (ordinary_decimal i c hmem).1⟩

theorem sound_toggleLines (table : CheatTable) (i : ℕ) : ∀ line ∈ toggleLines i, Sound table line := by
  intro line hmem
  refine sound_of_ordinary (fun piece hpiece ↦ ?_) table
  have hall : ∀ line ∈ toggleLines i, ∀ piece ∈ line,
      ∃ text, piece = .code text ∧ ∀ c ∈ text, Ordinary c := by
    unfold toggleLines
    simp only [List.forall_mem_cons]
    refine ⟨⟨?_, ordinary_place i, ?_, ?_⟩, ⟨?_, ordinary_place i, ?_, ?_⟩,
      ⟨?_, ordinary_place i, ?_, ordinary_place i, ?_, ?_⟩, ⟨?_, ?_⟩, ?_, ?_⟩
    all_goals first
    | exact ordinary_code rfl (by decide)
    | exact fun _ hnil ↦ absurd hnil List.not_mem_nil
  exact hall line hmem piece hpiece

theorem sound_freezeEntryLines (floats : FloatFormats) (table : CheatTable) (e : CheatEntry) (i : ℕ) :
    ∀ line ∈ freezeEntryLines floats e i, Sound table line := by
  unfold freezeEntryLines
  split_ifs
  · exact fun _ hnil ↦ absurd hnil List.not_mem_nil
  split
  · exact fun _ hnil ↦ absurd hnil List.not_mem_nil
  · next body hbody =>
    have hall : ∀ line ∈ [[code "        if (cheat_", .code (decimal i), code "_enabled) \x7b"],
        [code "            ", .code body], [code "        \x7d"]], ∀ piece ∈ line,
        ∃ text, piece = .code text ∧ ∀ c ∈ text, Ordinary c := by
      simp only [List.forall_mem_cons]
      refine ⟨⟨?_, ordinary_place i, ?_, ?_⟩,
        ⟨?_, ⟨body, rfl, ordinary_freezeWriteBody hbody⟩, ?_⟩, ⟨?_, ?_⟩, ?_⟩
      all_goals first
      | exact ordinary_code rfl (by decide)
      | exact fun _ hnil ↦ absurd hnil List.not_mem_nil
    exact fun line hmem ↦ sound_of_ordinary (hall line hmem) table

/-- Fixed code leads from phase to phase. -/
theorem next_code {text : String} {chars : List Char} {phase : Phase} {after : Option Phase}
    (htext : text = String.ofList chars) (h : phase.behind chars = after) :
    (code text).next phase = after := by
  rw [code, Piece.next, htext, String.toList_ofList, h]

theorem next_decimal (i : ℕ) : (Piece.code (decimal i)).next .word = some .word :=
  behind_word (ordinary_decimal i)

theorem next_hotkeyText (e : CheatEntry) (keyIdx : ℕ) :
    (hotkeyText e keyIdx).next .code = some .code := by
  unfold hotkeyText
  split_ifs
  · exact behind_quote trainerText [fallbackKey keyIdx]
  · rfl

theorem isLine_cheatLine (e : CheatEntry) (i keyIdx : ℕ) : IsLine (cheatLine e i keyIdx) = true := by
  have hfront : (code "    printf(\"  [%c] %-12s %s\\n\", cheat_").next .code = some .word :=
    next_code rfl (by decide)
  have henabled : (code "_enabled ? ").next .word = some .code := next_code rfl (by decide)
  have hcolon : (code " : ").next .code = some .code := next_code rfl (by decide)
  have hcomma : (code ", ").next .code = some .code := next_code rfl (by decide)
  have hclose : (code ");").next .code = some .code := next_code rfl (by decide)
  have hquote : ∀ c, (Piece.character c).next .code = some .code := fun _ ↦ rfl
  have hliteral : ∀ text, (Piece.literal text).next .code = some .code := fun _ ↦ rfl
  rw [IsLine, cheatLine, behindPieces_cons hfront, behindPieces_cons (next_decimal i),
    behindPieces_cons henabled, behindPieces_cons (hquote _), behindPieces_cons hcolon,
    behindPieces_cons (hquote _), behindPieces_cons hcomma,
      behindPieces_cons (next_hotkeyText e keyIdx),
    behindPieces_cons hcomma, behindPieces_cons (hliteral _), behindPieces_cons hclose]
  rfl

theorem isLine_hotkeyLine (e : CheatEntry) (i keyIdx : ℕ) : IsLine (hotkeyLine e i keyIdx) = true := by
  have hfront : (code "            if (hotkey_matches((unsigned char)c, ").next .code = some .code :=
    next_code rfl (by decide)
  have hcomma : (code ", ").next .code = some .code := next_code rfl (by decide)
  have htoggle : (code ")) \x7b toggle_cheat_").next .code = some .word := next_code rfl (by decide)
  have hend : (code "(); print_trainer_ui(); \x7d").next .word = some .code := next_code rfl (by decide)
  have hliteral : (Piece.literal e.hotkeyKeys).next .code = some .code := rfl
  have hquote : (Piece.character (fallbackKey keyIdx)).next .code = some .code := rfl
  rw [IsLine, hotkeyLine, behindPieces_cons hfront, behindPieces_cons hliteral,
    behindPieces_cons hcomma,
    behindPieces_cons hquote, behindPieces_cons htoggle, behindPieces_cons (next_decimal i),
    behindPieces_cons hend]
  rfl

theorem isLine_embeddedScriptLine (e : CheatEntry) : IsLine (embeddedScriptLine e) = true := by
  have hfront : (code "    \x7b").next .code = some .code := next_code rfl (by decide)
  have hcomma : (code ", ").next .code = some .code := next_code rfl (by decide)
  have hclose : (code "\x7d,").next .code = some .code := next_code rfl (by decide)
  have hliteral : ∀ text, (Piece.literal text).next .code = some .code := fun _ ↦ rfl
  rw [IsLine, embeddedScriptLine, behindPieces_cons hfront, behindPieces_cons (hliteral _),
    behindPieces_cons hcomma, behindPieces_cons (hliteral _), behindPieces_cons hcomma,
    behindPieces_cons (hliteral _), behindPieces_cons hclose]
  rfl

theorem mem_writtenTexts_script {table : CheatTable} {e : CheatEntry} (he : e ∈ embeddedScripts table) :
    ∀ text ∈ [e.description, e.luaScript, e.autoAsmScript], text ∈ writtenTexts table := fun _ htext ↦
  List.mem_append_left _ (List.mem_cons_of_mem _ (List.mem_cons_of_mem _
    (List.mem_flatMap.mpr ⟨e, he, htext⟩)))

theorem mem_writtenTexts_toggled {table : CheatTable} {e : CheatEntry} {i : ℕ}
    (he : (e, i) ∈ toggledEntries table) :
    ∀ text ∈ [e.hotkeyKeys, e.description], text ∈ writtenTexts table := fun _ htext ↦
  List.mem_append_right _ (List.mem_flatMap.mpr ⟨(e, i), he, htext⟩)

/-- An entry with a toggle and the number of its key. -/
theorem mem_zipIdx_toggled {table : CheatTable} {e : CheatEntry} {i keyIdx : ℕ}
    (h : ((e, i), keyIdx) ∈ (toggledEntries table).zipIdx) :
    (e, i) ∈ toggledEntries table ∧ keyIdx < (toggledEntries table).length := by
  obtain ⟨-, hlt, -⟩ := List.mem_zipIdx h
  exact ⟨List.fst_mem_of_mem_zipIdx h, by omega⟩

theorem sound_scriptLines (table : CheatTable) : ∀ line ∈ scriptLines table, Sound table line := by
  unfold scriptLines
  intro line hmem
  rcases List.mem_append.mp hmem with hmem | hend
  · rcases List.mem_append.mp hmem with hstart | hscript
    · refine ⟨isLine_of_blank ?_ line hstart, ?_⟩
      · simp only [List.map_cons, List.map_nil, Piece.blank, code]
        repeat rw [String.toList_ofList]
        decide
      · refine (?_ : ∀ line ∈ _, ∀ piece ∈ line, Allowed table piece) line hstart
        simp [mem_writtenTexts_table]
    · obtain ⟨e, he, rfl⟩ := List.mem_map.mp hscript
      have hwritten := mem_writtenTexts_script he
      refine ⟨isLine_embeddedScriptLine e, ?_⟩
      have htexts : e.description ∈ writtenTexts table ∧ e.luaScript ∈ writtenTexts table ∧
          e.autoAsmScript ∈ writtenTexts table := by simpa using hwritten
      simp [embeddedScriptLine, htexts]
  · refine sound_of_fixed ?_ table line hend
    unfold code
    repeat rw [String.toList_ofList]
    decide

theorem sound_uiLines (table : CheatTable) : ∀ line ∈ uiLines table, Sound table line := by
  unfold uiLines
  intro line hmem
  rcases List.mem_append.mp hmem with hmem | hend
  · rcases List.mem_append.mp hmem with hstart | hcheat
    · refine ⟨isLine_of_blank ?_ line hstart, ?_⟩
      · simp only [List.map_cons, List.map_nil, Piece.blank, code]
        repeat rw [String.toList_ofList]
        decide
      · refine (?_ : ∀ line ∈ _, ∀ piece ∈ line, Allowed table piece) line hstart
        simp [mem_writtenTexts_table]
    · obtain ⟨⟨⟨e, i⟩, keyIdx⟩, he, rfl⟩ := List.mem_map.mp hcheat
      have hwritten := mem_writtenTexts_toggled (mem_zipIdx_toggled he).1
      have hkey : Allowed table (hotkeyText e keyIdx) := by
        unfold hotkeyText
        split_ifs
        · trivial
        · exact hwritten _ (by simp)
      refine ⟨isLine_cheatLine e i keyIdx, ?_⟩
      have hdescription := hwritten e.description (by simp)
      simp [cheatLine, hkey, hdescription]
  · refine sound_of_fixed ?_ table line hend
    unfold code
    repeat rw [String.toList_ofList]
    decide

theorem sound_freezeEntries (floats : FloatFormats) (table : CheatTable) :
    ∀ line ∈ freezeEntries floats table, Sound table line := by
  intro line hmem
  obtain ⟨⟨e, i⟩, -, hline⟩ := List.mem_flatMap.mp hmem
  exact sound_freezeEntryLines floats table e i line hline

theorem sound_freezeLines (floats : FloatFormats) (table : CheatTable) :
    ∀ line ∈ freezeLines floats table, Sound table line := by
  unfold freezeLines
  intro line hmem
  rcases List.mem_append.mp hmem with hmem | hend
  · rcases List.mem_append.mp hmem with hstart | hentry
    · refine sound_of_fixed ?_ table line hstart
      unfold code
      repeat rw [String.toList_ofList]
      decide
    · exact sound_freezeEntries floats table line hentry
  · refine sound_of_fixed ?_ table line hend
    unfold code
    repeat rw [String.toList_ofList]
    decide

theorem sound_mainLines (floats : FloatFormats) (table : CheatTable) :
    ∀ line ∈ mainLines floats table, Sound table line := by
  unfold mainLines
  intro line hmem
  rcases List.mem_append.mp hmem with hmem | hend
  · rcases List.mem_append.mp hmem with hmem | hentry
    · rcases List.mem_append.mp hmem with hmem | hfreeze
      · rcases List.mem_append.mp hmem with hstart | hkey
        · refine ⟨isLine_of_blank ?_ line hstart, ?_⟩
          · simp only [List.map_cons, List.map_nil, Piece.blank, code]
            repeat rw [String.toList_ofList]
            decide
          · refine (?_ : ∀ line ∈ _, ∀ piece ∈ line, Allowed table piece) line hstart
            simp [mem_writtenTexts_table]
        · obtain ⟨⟨⟨e, i⟩, keyIdx⟩, he, rfl⟩ := List.mem_map.mp hkey
          obtain ⟨htoggled, hlt⟩ := mem_zipIdx_toggled he
          have hwritten := mem_writtenTexts_toggled htoggled
          refine ⟨isLine_hotkeyLine e i keyIdx, ?_⟩
          have hhotkey := hwritten e.hotkeyKeys (by simp)
          have hkey : Allowed table (.character (fallbackKey keyIdx)) := .inr (.inr ⟨keyIdx, hlt, rfl⟩)
          simp [hotkeyLine, hhotkey, hkey]
      · refine sound_of_fixed ?_ table line hfreeze
        unfold code
        repeat rw [String.toList_ofList]
        decide
    · exact sound_freezeEntries floats table line hentry
  · refine sound_of_fixed ?_ table line hend
    unfold code
    repeat rw [String.toList_ofList]
    decide

theorem sound_programLines (floats : FloatFormats) (table : CheatTable) :
    ∀ line ∈ programLines floats table, Sound table line := by
  unfold programLines
  simp only [List.forall_mem_append]
  refine ⟨⟨⟨⟨⟨⟨?_, ?_⟩, ?_⟩, ?_⟩, ?_⟩, ?_⟩, ?_⟩
  · exact sound_of_fixed fixed_includeLines table
  · exact sound_scriptLines table
  · exact sound_of_fixed fixed_helperLines table
  · intro line hmem
    obtain ⟨⟨e, i⟩, -, hline⟩ := List.mem_flatMap.mp hmem
    exact sound_toggleLines table i line hline
  · exact sound_uiLines table
  · exact sound_freezeLines floats table
  · exact sound_mainLines floats table

/-! ### What is written -/

theorem getElem_mem_zipIdx {α : Type} {list : List α} {k : ℕ} (hk : k < list.length) :
    (list[k], k) ∈ list.zipIdx := by
  refine List.mem_iff_getElem.mpr ⟨k, by simpa using hk, ?_⟩
  rw [List.getElem_zipIdx, Nat.zero_add]

theorem hotkeyLine_mem (floats : FloatFormats) {table : CheatTable} {e : CheatEntry} {i keyIdx : ℕ}
    (h : ((e, i), keyIdx) ∈ (toggledEntries table).zipIdx) :
    hotkeyLine e i keyIdx ∈ programLines floats table := by
  have hline : hotkeyLine e i keyIdx ∈ mainLines floats table :=
    List.mem_append_left _ (List.mem_append_left _ (List.mem_append_left _ (List.mem_append_right _
      (List.mem_map.mpr ⟨((e, i), keyIdx), h, rfl⟩))))
  exact List.mem_append_right _ hline

theorem exists_literal (floats : FloatFormats) {table : CheatTable} {text : Text}
    (h : text ∈ writtenTexts table) : ∃ line ∈ programLines floats table,
      Piece.literal text ∈ line := by
  rcases List.mem_append.mp h with h | h
  · rcases List.mem_cons.mp h with rfl | h
    · refine ⟨[code "    printf(\"Trainer for: %s\\n\", ", .literal table.gameName, code ");"], ?_, by simp⟩
      simp [programLines, uiLines]
    rcases List.mem_cons.mp h with rfl | h
    · refine ⟨[code "static const char* embedded_table_lua = ", .literal table.luaScript, code ";"], ?_,
        by simp⟩
      simp [programLines, scriptLines]
    · obtain ⟨e, he, htext⟩ := List.mem_flatMap.mp h
      refine ⟨embeddedScriptLine e, ?_, ?_⟩
      · have hscript : embeddedScriptLine e ∈ scriptLines table :=
          List.mem_append_left _ (List.mem_append_right _ (List.mem_map_of_mem he))
        simp [programLines, hscript]
      · have hcases : text = e.description ∨ text = e.luaScript ∨ text = e.autoAsmScript := by
          simpa using htext
        rcases hcases with rfl | rfl | rfl <;> simp [embeddedScriptLine]
  · obtain ⟨⟨e, i⟩, he, htext⟩ := List.mem_flatMap.mp h
    obtain ⟨keyIdx, hlt, hget⟩ := List.mem_iff_getElem.mp he
    have hkey : ((e, i), keyIdx) ∈ (toggledEntries table).zipIdx := hget ▸ getElem_mem_zipIdx hlt
    have hcases : text = e.hotkeyKeys ∨ text = e.description := by simpa using htext
    rcases hcases with rfl | rfl
    · exact ⟨hotkeyLine e i keyIdx, hotkeyLine_mem floats hkey, by simp [hotkeyLine]⟩
    · have hline : cheatLine e i keyIdx ∈ uiLines table :=
        List.mem_append_left _
          (List.mem_append_right _ (List.mem_map.mpr ⟨((e, i), keyIdx), hkey, rfl⟩))
      refine ⟨cheatLine e i keyIdx, ?_, by simp [cheatLine]⟩
      simp [programLines, hline]

theorem exists_character (floats : FloatFormats) {table : CheatTable} {keyIdx : ℕ}
    (h : keyIdx < (toggledEntries table).length) :
    ∃ line ∈ programLines floats table, Piece.character (fallbackKey keyIdx) ∈ line := by
  have hline := hotkeyLine_mem floats (getElem_mem_zipIdx h)
  exact ⟨_, hline, by simp [hotkeyLine]⟩

/-! ### Tables with the same texts empty -/

/-- A text of which only the emptiness is kept. -/
def blankText (text : Text) : Text := if text = [] then [] else ['x']

def blankEntry (e : CheatEntry) : CheatEntry :=
  { e with
    description := blankText e.description
    luaScript := blankText e.luaScript
    autoAsmScript := blankText e.autoAsmScript
    hotkeyKeys := blankText e.hotkeyKeys }

/-- The table with one text for all. -/
def blankTable (table : CheatTable) : CheatTable :=
  { table with
    gameName := blankText table.gameName
    author := blankText table.author
    luaScript := blankText table.luaScript
    entries := table.entries.map blankEntry }

theorem blankText_eq_nil (text : Text) : blankText text = [] ↔ text = [] := by
  unfold blankText
  split_ifs with h <;> simp [h]

theorem isEmpty_blankText (text : Text) : (blankText text).isEmpty = text.isEmpty := by
  rw [Bool.eq_iff_iff, List.isEmpty_iff, List.isEmpty_iff, blankText_eq_nil]

theorem embeddedScripts_blank (table : CheatTable) :
    embeddedScripts (blankTable table) = (embeddedScripts table).map blankEntry := by
  unfold embeddedScripts
  rw [blankTable, List.filter_map]
  congr 1
  refine List.filter_congr fun e _ ↦ ?_
  simp only [Function.comp_apply, blankEntry, isEmpty_blankText]

theorem toggledEntries_blank (table : CheatTable) :
    toggledEntries (blankTable table) = (toggledEntries table).map (Prod.map blankEntry id) := by
  unfold toggledEntries
  rw [blankTable, List.zipIdx_map, List.filter_map]
  rfl

/-- The lines without their texts. -/
def shape (lines : List Line) : List Line := lines.map (List.map Piece.blank)

theorem shape_append (first second : List Line) :
    shape (first ++ second) = shape first ++ shape second :=
  List.map_append

theorem shape_scriptLines (table : CheatTable) :
    shape (scriptLines (blankTable table)) = shape (scriptLines table) := by
  unfold scriptLines
  rw [shape_append, shape_append, shape_append, shape_append, embeddedScripts_blank]
  congr 2
  · simp only [shape, List.map_map]
    rfl

theorem hotkeyText_blank (e : CheatEntry) (keyIdx : ℕ) :
    (hotkeyText (blankEntry e) keyIdx).blank = (hotkeyText e keyIdx).blank := by
  have hblank : (blankEntry e).hotkeyKeys = [] ↔ e.hotkeyKeys = [] := blankText_eq_nil e.hotkeyKeys
  unfold hotkeyText
  by_cases h : e.hotkeyKeys = []
  · rw [if_pos h, if_pos (hblank.mpr h)]
  · rw [if_neg h, if_neg fun hempty ↦ h (hblank.mp hempty)]
    rfl

theorem shape_cheatLine (e : CheatEntry) (i keyIdx : ℕ) :
    (cheatLine (blankEntry e) i keyIdx).map Piece.blank = (cheatLine e i keyIdx).map Piece.blank := by
  simp only [cheatLine, List.map_cons, hotkeyText_blank]
  rfl

/-- The lines of the toggles, one for each. -/
theorem shape_toggled {line : CheatEntry → ℕ → ℕ → Line}
    (h : ∀ e i keyIdx, (line (blankEntry e) i keyIdx).map Piece.blank =
    (line e i keyIdx).map Piece.blank)
    (table : CheatTable) :
    shape ((toggledEntries (blankTable table)).zipIdx.map fun ((e, i), keyIdx) ↦ line e i keyIdx) =
      shape ((toggledEntries table).zipIdx.map fun ((e, i), keyIdx) ↦ line e i keyIdx) := by
  rw [toggledEntries_blank, List.zipIdx_map]
  simp only [shape, List.map_map]
  exact List.map_congr_left fun toggled _ ↦ h toggled.1.1 toggled.1.2 toggled.2

theorem freezeEntries_blank (floats : FloatFormats) (table : CheatTable) :
    freezeEntries floats (blankTable table) = freezeEntries floats table := by
  unfold freezeEntries
  rw [toggledEntries_blank, List.flatMap_map]
  rfl

theorem shape_uiLines (table : CheatTable) :
    shape (uiLines (blankTable table)) = shape (uiLines table) := by
  unfold uiLines
  rw [shape_append, shape_append, shape_append, shape_append, shape_toggled shape_cheatLine]
  rfl

theorem shape_mainLines (floats : FloatFormats) (table : CheatTable) :
    shape (mainLines floats (blankTable table)) = shape (mainLines floats table) := by
  have hkeys := @shape_toggled hotkeyLine (fun _ _ _ ↦ rfl) table
  unfold mainLines
  simp only [shape_append, hkeys, freezeEntries_blank]
  rfl

theorem shape_programLines (floats : FloatFormats) (table : CheatTable) :
    shape (programLines floats (blankTable table)) = shape (programLines floats table) := by
  have htoggle : ((toggledEntries (blankTable table)).flatMap fun (_, i) ↦ toggleLines i) =
      (toggledEntries table).flatMap fun (_, i) ↦ toggleLines i := by
    rw [toggledEntries_blank, List.flatMap_map]
    rfl
  have hfreeze : freezeLines floats (blankTable table) = freezeLines floats table := by
    unfold freezeLines
    rw [freezeEntries_blank]
  unfold programLines
  simp only [shape_append, shape_scriptLines, htoggle, shape_uiLines, hfreeze, shape_mainLines]

/-! ### The tokens of the source -/

/-- Two comments and a line of code: a backslash at the end of the second comment takes in the code.
-/
theorem run_header {first second line : List Char} (hfirst : '\n' ∉ first) (hsecond : '\n' ∉ second)
    (hne : second ≠ []) (hline : '\n' ∉ line) (hlast : line.getLast? ≠ some backslash)
    (rest : List Char) :
    run fresh (splice ('/' :: '/' :: (first ++ '\n' :: '/' :: '/' ::
        (second ++ '\n' :: (line ++ '\n' :: rest))))) =
      if second.getLast? = some backslash then run fresh (splice rest)
      else run fresh (splice (line ++ '\n' :: rest)) := by
  have hcomment : ∀ front text : List Char, '\n' ∉ front → '\n' ∉ text →
      text.getLast? = second.getLast? →
      run fresh ('/' :: '/' :: (front ++ splice (text ++ '\n' :: (line ++ '\n' :: rest)))) =
        if second.getLast? = some backslash then run fresh (splice rest)
        else run fresh (splice (line ++ '\n' :: rest)) := by
    intro front text hfront htext hsame
    rw [run_comment_line hfront htext, hsame]
    split_ifs
    · have hinit : '\n' ∉ front ++ text.dropLast := fun hmem ↦
        (List.mem_append.mp hmem).elim hfront fun h ↦ htext (List.mem_of_mem_dropLast h)
      rw [run_comment_line hinit hline, if_neg hlast]
    · rfl
  have hslashes : '\n' ∉ '/' :: '/' :: second :=
    List.not_mem_cons_of_ne_of_not_mem (by decide)
      (List.not_mem_cons_of_ne_of_not_mem (by decide) hsecond)
  have hsame : ('/' :: '/' :: second).getLast? = second.getLast? := by
    obtain ⟨c, second, rfl⟩ := List.exists_cons_of_ne_nil hne
    rw [List.getLast?_cons_cons, List.getLast?_cons_cons]
  have hstart := run_comment_line List.not_mem_nil hfirst
    ('/' :: '/' :: (second ++ '\n' :: (line ++ '\n' :: rest)))
  rw [List.nil_append, List.nil_append] at hstart
  rw [splice_slashes, hstart]
  split_ifs with hback hlong
  · exact (hcomment first.dropLast ('/' :: '/' :: second)
      (fun h ↦ hfirst (List.mem_of_mem_dropLast h)) hslashes hsame).trans (if_pos hlong)
  · exact (hcomment first.dropLast ('/' :: '/' :: second)
      (fun h ↦ hfirst (List.mem_of_mem_dropLast h)) hslashes hsame).trans (if_neg hlong)
  · rw [splice_slashes]
    exact (hcomment [] second List.not_mem_nil hsecond rfl).trans (if_pos ‹_›)
  · rw [splice_slashes]
    exact (hcomment [] second List.not_mem_nil hsecond rfl).trans (if_neg ‹_›)

theorem getLast_comment {front : Text} (hfront : front.getLast? ≠ some backslash) (text : Text) :
    (front ++ lineCommentText text).getLast? = some backslash ↔ text.getLast? = some backslash := by
  rcases List.eq_nil_or_concat text with rfl | ⟨init, c, rfl⟩
  · simpa [lineCommentText] using hfront
  · have hlast : lineCommentText (init ++ [c]) =
        lineCommentText init ++ [if c = '\r' ∨ c = '\n' then ' ' else c] := by simp [lineCommentText]
    rw [List.concat_eq_append, hlast, ← List.append_assoc, List.getLast?_concat, List.getLast?_concat]
    split_ifs with hbreak
    · constructor
      · exact fun h ↦ absurd (Option.some.inj h) (by decide)
      · rcases hbreak with rfl | rfl <;> exact fun h ↦ absurd (Option.some.inj h) (by decide)
    · rfl

/-- The tokens of the literals of texts. -/
def literalTokens (floats : FloatFormats) (table : CheatTable) : List Token :=
  (sourceLines floats table).flatMap fun line ↦ line.flatMap trainerText.fillings

theorem literalTokens_eq (floats : FloatFormats) (table : CheatTable) :
    literalTokens floats table =
      (programLines floats table).flatMap fun line ↦ line.flatMap trainerText.fillings := by
  have hheader : ((headerLines table).flatMap fun line ↦ line.flatMap trainerText.fillings) = [] := rfl
  have hline : gnuSourceLine.flatMap trainerText.fillings = [] := rfl
  rw [literalTokens, sourceLines, List.flatMap_append, List.flatMap_cons, hheader, hline,
    List.nil_append, List.nil_append]

/-- The tokens without the texts: the definition in front is lost to an author that ends in a
backslash. -/
def skeleton (floats : FloatFormats) (table : CheatTable) : List (Option Token) :=
  if table.author.getLast? = some backslash then (programLines floats table).flatMap outline
  else (gnuSourceLine :: programLines floats table).flatMap outline

theorem fixed_gnuSourceLine : Fixed [gnuSourceLine] := by
  unfold gnuSourceLine code
  repeat rw [String.toList_ofList]
  decide

/-- The key of each toggle stands for itself. -/
def PlainKeys (table : CheatTable) : Prop :=
  ∀ keyIdx < (toggledEntries table).length, (Piece.character (fallbackKey keyIdx)).Valid

theorem valid_of_allowed {table : CheatTable} (hkeys : PlainKeys table) {piece : Piece}
    (h : Allowed table piece) : piece.Valid := by
  cases piece with
  | code text => trivial
  | literal text => trivial
  | comment text => trivial
  | character c =>
    rcases h with rfl | rfl | ⟨keyIdx, hlt, rfl⟩
    · exact ⟨by decide, by decide, by decide⟩
    · exact ⟨by decide, by decide, by decide⟩
    · exact hkeys keyIdx hlt

theorem not_comment_of_allowed {table : CheatTable} {piece : Piece} (h : Allowed table piece) :
    ¬piece.IsComment := by
  cases piece with
  | comment text => exact absurd h id
  | code text => exact id
  | literal text => exact id
  | character c => exact id

/-- The source, with its first three lines spelled out. -/
theorem generateSource_eq (floats : FloatFormats) (table : CheatTable) :
    generateSource floats table =
      '/' :: '/' :: ((" Auto-generated trainer for: ".toList ++ lineCommentText table.gameName) ++ '\n' ::
        '/' :: '/' :: ((" Author: ".toList ++ lineCommentText table.author) ++ '\n' ::
          ("#define _GNU_SOURCE".toList ++
            '\n' :: trainerText.source (programLines floats table)))) := by
  have hgame : "// Auto-generated trainer for: ".toList =
      '/' :: '/' :: " Auto-generated trainer for: ".toList := by
    rw [String.toList_ofList, String.toList_ofList]
  have hauthor : "// Author: ".toList = '/' :: '/' :: " Author: ".toList := by
    rw [String.toList_ofList, String.toList_ofList]
  simp only [generateSource, sourceLines, headerLines, gnuSourceLine, code, Quoting.source,
    Quoting.line,
    List.flatMap_cons, List.flatMap_nil, List.append_nil, Quoting.text, trainerText,
    hgame, hauthor, List.append_assoc, List.cons_append, List.nil_append]

/-- The tokens of the source, where the keys of the toggles stand for themselves. -/
theorem lex_generateSource (floats : FloatFormats) {table : CheatTable} (hkeys : PlainKeys table) :
    lex (generateSource floats table) = fill (skeleton floats table) (literalTokens floats table) := by
  have hsound := sound_programLines floats table
  have hlines : ∀ line ∈ gnuSourceLine :: programLines floats table,
      IsLine line = true ∧ (∀ piece ∈ line, piece.Valid) ∧ ∀ piece ∈ line, ¬piece.IsComment := by
    have hall : ∀ {line}, Sound table line →
        IsLine line = true ∧ (∀ piece ∈ line, piece.Valid) ∧ ∀ piece ∈ line, ¬piece.IsComment :=
      fun h ↦ ⟨h.1, fun piece hmem ↦ valid_of_allowed hkeys (h.2 piece hmem),
        fun piece hmem ↦ not_comment_of_allowed (h.2 piece hmem)⟩
    refine List.forall_mem_cons.mpr ⟨?_, fun line hmem ↦ hall (hsound line hmem)⟩
    exact hall (sound_of_fixed fixed_gnuSourceLine table gnuSourceLine List.mem_cons_self)
  have hread : ∀ lines : List Line,
      (∀ line ∈ lines, line ∈ gnuSourceLine :: programLines floats table) →
      run fresh (splice (trainerText.source lines)) = (fresh, fill (lines.flatMap outline)
        (lines.flatMap fun line ↦ line.flatMap trainerText.fillings)) := by
    intro lines hsub
    have hsplice := splice_source trainerText (fun line hmem ↦ (hlines line (hsub line hmem)).1)
      (fun line hmem ↦ (hlines line (hsub line hmem)).2.1)
      (fun line hmem ↦ (hlines line (hsub line hmem)).2.2) []
    rw [List.append_nil, splice, List.append_nil] at hsplice
    rw [hsplice]
    exact run_lines trainerText (fun line hmem ↦ (hlines line (hsub line hmem)).1)
      fun line hmem ↦ (hlines line (hsub line hmem)).2.1
  have hwhole : "#define _GNU_SOURCE".toList ++ '\n' :: trainerText.source (programLines floats table) =
      trainerText.source (gnuSourceLine :: programLines floats table) := by
    simp [Quoting.source, Quoting.line, gnuSourceLine, code, Quoting.text]
  have hgame : '\n' ∉ " Auto-generated trainer for: ".toList ++ lineCommentText table.gameName :=
    fun hmem ↦ (List.mem_append.mp hmem).elim (by rw [String.toList_ofList]; decide)
      (newline_lineCommentText _)
  have hauthor : '\n' ∉ " Author: ".toList ++ lineCommentText table.author :=
    fun hmem ↦ (List.mem_append.mp hmem).elim (by rw [String.toList_ofList]; decide)
      (newline_lineCommentText _)
  have hfront : " Author: ".toList.getLast? ≠ some backslash := by
    rw [String.toList_ofList]
    decide
  have hlast := getLast_comment hfront table.author
  have hdefine : '\n' ∉ "#define _GNU_SOURCE".toList ∧
      "#define _GNU_SOURCE".toList.getLast? ≠ some backslash := by
    rw [String.toList_ofList]
    decide
  have hrun : run fresh (splice (generateSource floats table)) =
      (fresh, fill (skeleton floats table) (literalTokens floats table)) := by
    rw [generateSource_eq, run_header hgame hauthor (by simp) hdefine.1 hdefine.2, hwhole,
      literalTokens_eq, skeleton]
    by_cases hback : table.author.getLast? = some backslash
    · rw [if_pos (hlast.mpr hback), if_pos hback]
      exact hread _ fun line hmem ↦ List.mem_cons_of_mem _ hmem
    · have hnone : gnuSourceLine.flatMap trainerText.fillings = [] := rfl
      have hfillings : ((gnuSourceLine :: programLines floats table).flatMap
          fun line ↦ line.flatMap trainerText.fillings) =
          (programLines floats table).flatMap fun line ↦ line.flatMap trainerText.fillings := by
        rw [List.flatMap_cons, hnone, List.nil_append]
      have hall := hread (gnuSourceLine :: programLines floats table) fun _ hmem ↦ hmem
      rw [hfillings] at hall
      rw [if_neg fun h ↦ hback (hlast.mp h), if_neg hback]
      exact hall
  have hend : run fresh ['\n'] = (fresh, []) := rfl
  rw [lex, run_append, hrun, hend, List.append_nil]

theorem flatMap_outline_shape (lines : List Line) :
    lines.flatMap outline = (shape lines).flatMap outline := by
  rw [shape, List.flatMap_map]
  exact List.flatMap_congr fun line _ ↦ (outline_blank line).symm

theorem outline_programLines_blank (floats : FloatFormats) (table : CheatTable) :
    (programLines floats (blankTable table)).flatMap outline =
      (programLines floats table).flatMap outline := by
  rw [flatMap_outline_shape, shape_programLines, ← flatMap_outline_shape]

theorem holes_skeleton (floats : FloatFormats) (table : CheatTable) :
    holes (skeleton floats table) = (literalTokens floats table).length := by
  have hprogram := holes_outlines trainerText (programLines floats table)
  have hline : holes (outline gnuSourceLine) = 0 := holes_outline trainerText gnuSourceLine
  rw [literalTokens_eq, skeleton]
  split_ifs
  · exact hprogram
  · rw [List.flatMap_cons, holes_append, hline, hprogram, Nat.zero_add]

theorem length_gnuSourceLine : (outline gnuSourceLine).length = 3 := by
  unfold gnuSourceLine code
  rw [String.toList_ofList]
  decide

theorem author_blank (table : CheatTable) : (blankTable table).author.getLast? ≠ some backslash := by
  have hauthor : (blankTable table).author = blankText table.author := rfl
  rw [hauthor, blankText]
  split_ifs <;> decide

/-- Up to forty-three toggles have keys that stand for themselves. -/
theorem plainKeys_iff (table : CheatTable) : PlainKeys table ↔ (toggledEntries table).length ≤ 43 := by
  have hplain : ∀ keyIdx < 43, fallbackKey keyIdx ≠ singleMark ∧ fallbackKey keyIdx ≠ backslash ∧
      fallbackKey keyIdx ≠ '\n' := by decide
  have hback : fallbackKey 43 = backslash := by decide
  constructor
  · intro hkeys
    by_contra hmany
    exact (hkeys 43 (by omega)).2.1 hback
  · exact fun hfew keyIdx hlt ↦ hplain keyIdx (by omega)

theorem plainKeys_blank (table : CheatTable) : PlainKeys (blankTable table) ↔ PlainKeys table := by
  rw [plainKeys_iff, plainKeys_iff, toggledEntries_blank, List.length_map]

/-! ### Encoded texts -/

/-- The tokens are a skeleton with the literals of the texts in its holes. -/
def Fills (floats : FloatFormats) (skeleton : List (Option Token)) (table : CheatTable) : Prop :=
  holes skeleton = (literalTokens floats table).length ∧
    lex (generateSource floats table) = fill skeleton (literalTokens floats table)

/-- Outside of the literals of the texts, the sources of two tables have the same tokens. -/
def SameOutside (floats : FloatFormats) (table other : CheatTable) : Prop :=
  ∃ skeleton, Fills floats skeleton table ∧ Fills floats skeleton other

/-- The texts of a table have no part in its trainer but as the bytes of literals. -/
structure Encoded (floats : FloatFormats) (table : CheatTable) : Prop where
  literals : ∀ line ∈ sourceLines floats table, ∀ text, Piece.literal text ∈ line →
    unquote doubleQuote (cString text) = some (text.map fun c ↦ (byteOf c).toNat)
  outside : SameOutside floats table (blankTable table)
  characters : ∀ line ∈ sourceLines floats table, ∀ c, Piece.character c ∈ line →
    IsCharacterConstant [singleMark, c, singleMark]

/-- A table whose texts are encoded. -/
structure Writable (table : CheatTable) : Prop where
  clean : ∀ text ∈ writtenTexts table, Clean text
  author : table.author.getLast? ≠ some backslash
  toggles : (toggledEntries table).length ≤ 43

/-- A line of the source that has a literal or a character is a line of the program. -/
theorem mem_programLines {floats : FloatFormats} {table : CheatTable} {line : Line} {piece : Piece}
    (hline : line ∈ sourceLines floats table) (hpiece : piece ∈ line) (hcode : ¬piece.IsCode)
    (hcomment : ¬piece.IsComment) : line ∈ programLines floats table := by
  rcases List.mem_append.mp hline with hheader | hrest
  · have hother : piece.IsCode ∨ piece.IsComment := by
      have hcases : line = [code "// Auto-generated trainer for: ", .comment table.gameName] ∨
          line = [code "// Author: ", .comment table.author] := by simpa [headerLines] using hheader
      rcases hcases with rfl | rfl <;>
      · rcases List.mem_cons.mp hpiece with rfl | hlast
        · exact .inl trivial
        · exact .inr (List.mem_singleton.mp hlast ▸ trivial)
    exact absurd hother (not_or.mpr ⟨hcode, hcomment⟩)
  · rcases List.mem_cons.mp hrest with rfl | hprogram
    · exact absurd ((fixed_gnuSourceLine _ List.mem_cons_self).2 piece hpiece) hcode
    · exact hprogram

theorem sourceLines_of_programLines {floats : FloatFormats} {table : CheatTable} {line : Line}
    (h : line ∈ programLines floats table) : line ∈ sourceLines floats table :=
  List.mem_append_right _ (List.mem_cons_of_mem _ h)

theorem fills_skeleton (floats : FloatFormats) {table : CheatTable} (hkeys : PlainKeys table) :
    Fills floats (skeleton floats table) table :=
  ⟨holes_skeleton floats table, lex_generateSource floats hkeys⟩

theorem Fills.length {floats : FloatFormats} {skeleton : List (Option Token)} {table : CheatTable}
    (h : Fills floats skeleton table) :
    (lex (generateSource floats table)).length = skeleton.length := by
  rw [h.2, length_fill h.1]

theorem sameOutside_iff (floats : FloatFormats) {table : CheatTable} (hkeys : PlainKeys table) :
    SameOutside floats table (blankTable table) ↔ table.author.getLast? ≠ some backslash := by
  have hblank := fills_skeleton floats ((plainKeys_blank table).mpr hkeys)
  have hblankSkeleton : skeleton floats (blankTable table) =
      outline gnuSourceLine ++ (programLines floats table).flatMap outline := by
    rw [skeleton, if_neg (author_blank table), List.flatMap_cons, outline_programLines_blank]
  constructor
  · rintro ⟨common, htable, hother⟩ hback
    have hlost : skeleton floats table = (programLines floats table).flatMap outline := if_pos hback
    have hlength := htable.length.symm.trans (fills_skeleton floats hkeys).length
    have hblankLength := hother.length.symm.trans hblank.length
    rw [hlost] at hlength
    rw [hblankSkeleton, List.length_append, length_gnuSourceLine] at hblankLength
    omega
  · intro hauthor
    have hsame : skeleton floats table = skeleton floats (blankTable table) := by
      rw [hblankSkeleton, skeleton, if_neg hauthor, List.flatMap_cons]
    exact ⟨skeleton floats table, fills_skeleton floats hkeys, hsame ▸ hblank⟩

/-- The texts are encoded exactly where no digit runs into a number, the author does not end in a
backslash, and the keys do not reach the backslash. -/
theorem encoded_iff (floats : FloatFormats) (table : CheatTable) :
    Encoded floats table ↔ Writable table := by
  constructor
  · intro h
    have hkeys : PlainKeys table := by
      intro keyIdx hlt
      obtain ⟨line, hline, hkey⟩ := exists_character floats hlt
      exact (isCharacterConstant_iff _).mp
        (h.characters line (sourceLines_of_programLines hline) _ hkey)
    refine ⟨fun text htext ↦ ?_, (sameOutside_iff floats hkeys).mp h.outside,
      (plainKeys_iff table).mp hkeys⟩
    obtain ⟨line, hline, hliteral⟩ := exists_literal floats htext
    exact (unquote_cString_iff text).mp
      (h.literals line (sourceLines_of_programLines hline) text hliteral)
  · intro h
    have hkeys := (plainKeys_iff table).mpr h.toggles
    refine ⟨fun line hline text hliteral ↦ ?_, (sameOutside_iff floats hkeys).mpr h.author,
      fun line hline c hkey ↦ ?_⟩
    · have hprogram := mem_programLines hline hliteral id id
      exact (unquote_cString_iff text).mpr
        (h.clean text ((sound_programLines floats table line hprogram).2 _ hliteral))
    · have hprogram := mem_programLines hline hkey id id
      exact (isCharacterConstant_iff c).mpr
        (valid_of_allowed hkeys ((sound_programLines floats table line hprogram).2 _ hkey))

/-- Formats that read no text, for tables without floating-point entries. -/
def integersOnly : FloatFormats where
  float := ⟨23, 8, fun _ ↦ none, fun _ ↦ [], fun _ _ _ hmem ↦ absurd hmem List.not_mem_nil⟩
  double := ⟨52, 11, fun _ ↦ none, fun _ ↦ [], fun _ _ _ hmem ↦ absurd hmem List.not_mem_nil⟩

/-- The game name of two bytes, `E9` and the letter `a`: the literal has one character, out of
range. -/
theorem accented_name_not_encoded :
    ¬Encoded integersOnly { gameName := [Char.ofNat 0xe9, 'a'] } := by
  intro h
  have hline : [code "    printf(\"Trainer for: %s\\n\", ", .literal [Char.ofNat 0xe9, 'a'], code ");"] ∈
      sourceLines integersOnly { gameName := [Char.ofNat 0xe9, 'a'] } := by
    refine sourceLines_of_programLines ?_
    simp [programLines, uiLines]
  have hvalues := h.literals _ hline [Char.ofNat 0xe9, 'a'] (by simp)
  exact absurd hvalues (by decide)

end Cecore.Table.Trainer
