import Cecore.Core.Digits
import Cecore.Scanner.Pattern
import Mathlib.Data.List.Forall2
import Mathlib.Data.List.Induction

/-!
# The grammar of byte patterns

A word of a pattern is a wildcard for one byte, or bytes that are run together, each of two
characters: a hex digit or a wildcard for one half. `parseAOB` reads a word of two characters so,
and takes any other word of hex digits for one byte; `parseAOB_exact_iff` is exactly which texts it
reads as the grammar has them.
-/

set_option autoImplicit false
set_option relaxedAutoImplicit false

namespace Cecore.Scanner

/-- The return value of `parseAOB`. -/
def AobPattern.accepted (pattern : AobPattern) : Bool := pattern.valid && pattern.byteArray ≠ []

/-! ### The grammar -/

/-- What a character says of one half of a byte: value and mask. -/
inductive HalfDenotes : Char → ℕ → ℕ → Prop
  | any {c : Char} (hc : c = '?' ∨ c = '*') : HalfDenotes c 0 0x0
  | digit {c : Char} {d : ℕ} (hd : d < 16)
      (hc : c = Nat.digitChar d ∨ c = toUpperChar (Nat.digitChar d)) : HalfDenotes c d 0xF

/-- Bytes that are run together, each with its mask. -/
inductive BytesDenote : Text → List (UInt8 × UInt8) → Prop
  | nil : BytesDenote [] []
  | byte {high low : Char} {hv hm lv lm : ℕ} {rest : Text} {bytes : List (UInt8 × UInt8)}
      (hhigh : HalfDenotes high hv hm) (hlow : HalfDenotes low lv lm) (hrest : BytesDenote rest bytes) :
      BytesDenote (high :: low :: rest)
        ((UInt8.ofNat (hv * 16 + lv), UInt8.ofNat (hm * 16 + lm)) :: bytes)

/-- A word: a wildcard of one character, or bytes that are run together. -/
inductive WordDenotes : Text → List (UInt8 × UInt8) → Prop
  | wildcard {c : Char} (hc : c = '?' ∨ c = '*') : WordDenotes [c] [(0, 0)]
  | bytes {word : Text} {bytes : List (UInt8 × UInt8)} (hword : word ≠ []) (hbytes : BytesDenote word bytes) :
      WordDenotes word bytes

/-- A pattern is one word or more, between separators. -/
def PatternDenotes (text : Text) (bytes : List (UInt8 × UInt8)) : Prop :=
  ∃ parts, parts ≠ [] ∧ List.Forall₂ WordDenotes (tokens text) parts ∧ bytes = parts.flatten

/-- The text is accepted exactly if it is a pattern, and is read as what it denotes. -/
structure ParsesExactly (text : Text) : Prop where
  accepts : (parseAOB text).accepted = true ↔ ∃ bytes, PatternDenotes text bytes
  reads : (parseAOB text).accepted = true → ∀ bytes, PatternDenotes text bytes →
    (parseAOB text).byteArray = bytes.map Prod.fst ∧ (parseAOB text).byteArrayMask = bytes.map Prod.snd

/-! ### Words -/

def isHex (c : Char) : Bool := (digitValue c).any fun digit ↦ decide (digit < 16)

/-- A wildcard, or two characters for the halves of one byte. -/
def PlainWord (word : Text) : Prop :=
  word = ['?'] ∨ word = ['*'] ∨ word.length = 2 ∧ ∀ c ∈ word, (nib c).isSome = true

/-- A word that is taken for a byte. -/
def ReadableWord (word : Text) : Prop :=
  PlainWord word ∨ word.length ≠ 2 ∧ ∀ c ∈ word, isHex c = true

/-- A word of the grammar. -/
def GrammaticalWord (word : Text) : Prop :=
  word = ['?'] ∨ word = ['*'] ∨ word ≠ [] ∧ word.length % 2 = 0 ∧ ∀ c ∈ word, (nib c).isSome = true

theorem digitChar_of_digitValue {c : Char} {d : ℕ} (h : digitValue c = some d) (hd : d < 16) :
    c = Nat.digitChar d ∨ c = toUpperChar (Nat.digitChar d) := by
  have hchar : c = Char.ofNat c.toNat := (Char.ofNat_toNat c).symm
  unfold digitValue at h
  split_ifs at h with hdecimal hlower hupper
  · have hlow : 48 ≤ c.toNat := hdecimal.1
    have hhigh : c.toNat ≤ 57 := hdecimal.2
    obtain rfl := Option.some.inj h
    rw [hchar]
    interval_cases c.toNat <;> decide
  · have hlow : 97 ≤ c.toNat := hlower.1
    have hhigh : c.toNat < 103 := by
      have := Option.some.inj h
      omega
    obtain rfl := Option.some.inj h
    rw [hchar]
    interval_cases c.toNat <;> decide
  · have hlow : 65 ≤ c.toNat := hupper.1
    have hhigh : c.toNat < 71 := by
      have := Option.some.inj h
      omega
    obtain rfl := Option.some.inj h
    rw [hchar]
    interval_cases c.toNat <;> decide

/-- The parser reads one half of a byte as the grammar has it. -/
theorem nib_eq_some_iff {c : Char} {v m : ℕ} : nib c = some (v, m) ↔ HalfDenotes c v m := by
  constructor
  · intro h
    unfold nib at h
    split_ifs at h with hany
    · obtain ⟨rfl, rfl⟩ := Prod.mk.inj (Option.some.inj h)
      exact .any hany
    · split at h
      · rename_i digit hdigit
        split_ifs at h with hd
        obtain ⟨rfl, rfl⟩ := Prod.mk.inj (Option.some.inj h)
        exact .digit hd (digitChar_of_digitValue hdigit hd)
      · cases h
  · rintro (hc | ⟨hd, hc⟩)
    · exact if_pos hc
    · rcases hc with rfl | rfl <;> interval_cases v <;> decide

/-- Bytes that are run together are pairs of halves. -/
theorem exists_bytesDenote_iff (word : Text) : (∃ bytes, BytesDenote word bytes) ↔
    word.length % 2 = 0 ∧ ∀ c ∈ word, (nib c).isSome = true := by
  constructor
  · rintro ⟨bytes, h⟩
    induction h with
    | nil => exact ⟨rfl, fun c hc ↦ absurd hc List.not_mem_nil⟩
    | byte hhigh hlow _ ih =>
      refine ⟨by rw [List.length_cons, List.length_cons]; omega, fun c hc ↦ ?_⟩
      rcases List.mem_cons.mp hc with rfl | hc
      · exact Option.isSome_of_eq_some (nib_eq_some_iff.mpr hhigh)
      · rcases List.mem_cons.mp hc with rfl | hc
        · exact Option.isSome_of_eq_some (nib_eq_some_iff.mpr hlow)
        · exact ih.2 c hc
  · induction word using List.twoStepInduction with
    | nil => exact fun _ ↦ ⟨[], .nil⟩
    | singleton c => exact fun h ↦ absurd h.1 (by simp)
    | cons_cons high low rest ih _ =>
      rintro ⟨hlength, hhalves⟩
      obtain ⟨bytes, hbytes⟩ := ih ⟨by rw [List.length_cons, List.length_cons] at hlength; omega,
        fun c hc ↦ hhalves c (List.mem_cons_of_mem _ (List.mem_cons_of_mem _ hc))⟩
      obtain ⟨⟨hv, hm⟩, hhigh⟩ := Option.isSome_iff_exists.mp (hhalves high List.mem_cons_self)
      obtain ⟨⟨lv, lm⟩, hlow⟩ := Option.isSome_iff_exists.mp
        (hhalves low (List.mem_cons_of_mem _ List.mem_cons_self))
      exact ⟨_, .byte (nib_eq_some_iff.mp hhigh) (nib_eq_some_iff.mp hlow) hbytes⟩

theorem exists_wordDenotes_iff (word : Text) :
    (∃ bytes, WordDenotes word bytes) ↔ GrammaticalWord word := by
  constructor
  · rintro ⟨bytes, h⟩
    cases h with
    | wildcard hc =>
      rcases hc with rfl | rfl
      · exact .inl rfl
      · exact .inr (.inl rfl)
    | bytes hword hbytes => exact .inr (.inr ⟨hword, (exists_bytesDenote_iff word).mp ⟨bytes, hbytes⟩⟩)
  · rintro (rfl | rfl | ⟨hword, hpairs⟩)
    · exact ⟨_, .wildcard (.inl rfl)⟩
    · exact ⟨_, .wildcard (.inr rfl)⟩
    · obtain ⟨bytes, hbytes⟩ := (exists_bytesDenote_iff word).mpr hpairs
      exact ⟨bytes, .bytes hword hbytes⟩

/-- Run together, there is one byte for every two characters. -/
theorem BytesDenote.length_eq {word : Text} {bytes : List (UInt8 × UInt8)}
    (h : BytesDenote word bytes) :
    word.length = 2 * bytes.length := by
  induction h with
  | nil => rfl
  | byte _ _ _ ih =>
    rw [List.length_cons, List.length_cons, List.length_cons, ih]
    omega

/-! ### The parser -/

/-- What one token adds. -/
def AobPattern.ofToken (token : Text) : AobPattern := AobPattern.addToken {} token

theorem addToken_eq (pattern : AobPattern) (token : Text) : pattern.addToken token =
    { byteArray := pattern.byteArray ++ (AobPattern.ofToken token).byteArray
      byteArrayMask := pattern.byteArrayMask ++ (AobPattern.ofToken token).byteArrayMask
      valid := pattern.valid && (AobPattern.ofToken token).valid } := by
  unfold AobPattern.ofToken AobPattern.addToken
  split_ifs
  · simp
  · split <;> simp [Bool.and_assoc]

/-- The tokens add their bytes one behind the other, and all of them have to be valid. -/
theorem parseAOB_eq (text : Text) : parseAOB text =
    { byteArray := (tokens text).flatMap fun token ↦ (AobPattern.ofToken token).byteArray
      byteArrayMask := (tokens text).flatMap fun token ↦ (AobPattern.ofToken token).byteArrayMask
      valid := (tokens text).all fun token ↦ (AobPattern.ofToken token).valid } := by
  have hfold : ∀ (words : List Text) (pattern : AobPattern), words.foldl AobPattern.addToken pattern =
      { byteArray := pattern.byteArray ++ words.flatMap fun token ↦ (AobPattern.ofToken token).byteArray
        byteArrayMask :=
          pattern.byteArrayMask ++ words.flatMap fun token ↦ (AobPattern.ofToken token).byteArrayMask
        valid := pattern.valid && words.all fun token ↦ (AobPattern.ofToken token).valid } := by
    intro words
    induction words with
    | nil => intro pattern; simp
    | cons token rest ih =>
      intro pattern
      rw [List.foldl_cons, ih, addToken_eq]
      simp [List.append_assoc, Bool.and_assoc]
  rw [parseAOB, hfold]
  simp

/-- A word of the grammar that is no run of bytes adds the byte that it denotes. -/
theorem PlainWord.ofToken {word : Text} (h : PlainWord word) : ∃ byte : UInt8 × UInt8,
    AobPattern.ofToken word = { byteArray := [byte.1], byteArrayMask := [byte.2], valid := true } ∧
      ∀ bytes, WordDenotes word bytes ↔ bytes = [byte] := by
  have hsingle : ∀ {c : Char}, c = '?' ∨ c = '*' → ∀ bytes, WordDenotes [c] bytes ↔ bytes =
      [(0, 0)] := by
    intro c hc bytes
    constructor
    · rintro (_ | ⟨_, hbytes⟩)
      · rfl
      · cases hbytes
    · rintro rfl
      exact .wildcard hc
  rcases h with rfl | rfl | ⟨hlength, hhalves⟩
  · exact ⟨(0, 0), by decide, hsingle (.inl rfl)⟩
  · exact ⟨(0, 0), by decide, hsingle (.inr rfl)⟩
  · obtain ⟨high, low, rfl⟩ := List.length_eq_two.mp hlength
    obtain ⟨⟨hv, hm⟩, hhigh⟩ := Option.isSome_iff_exists.mp (hhalves high List.mem_cons_self)
    obtain ⟨⟨lv, lm⟩, hlow⟩ := Option.isSome_iff_exists.mp
      (hhalves low (List.mem_cons_of_mem _ List.mem_cons_self))
    refine ⟨(UInt8.ofNat (hv * 16 + lv), UInt8.ofNat (hm * 16 + lm)), ?_, fun bytes ↦ ⟨?_, ?_⟩⟩
    · unfold AobPattern.ofToken AobPattern.addToken
      split_ifs with hwild
      · rcases hwild with hboth | hone | hone
        · obtain ⟨rfl, hrest⟩ := List.cons.inj hboth
          obtain ⟨rfl, -⟩ := List.cons.inj hrest
          obtain ⟨rfl, rfl⟩ := Prod.mk.inj (Option.some.inj ((if_pos (.inl rfl)).symm.trans hhigh))
          obtain ⟨rfl, rfl⟩ := Prod.mk.inj (Option.some.inj ((if_pos (.inl rfl)).symm.trans hlow))
          rfl
        · exact absurd hone (by simp)
        · exact absurd hone (by simp)
      · simp [hhigh, hlow]
    · rintro (_ | ⟨_, hbytes⟩)
      cases hbytes with
      | byte hhigh' hlow' hrest =>
        cases hrest
        have hsame := Option.some.inj (hhigh.symm.trans (nib_eq_some_iff.mpr hhigh'))
        have hsame' := Option.some.inj (hlow.symm.trans (nib_eq_some_iff.mpr hlow'))
        obtain ⟨rfl, rfl⟩ := Prod.mk.inj hsame
        obtain ⟨rfl, rfl⟩ := Prod.mk.inj hsame'
        rfl
    · rintro rfl
      exact .bytes (List.cons_ne_nil _ _)
        (.byte (nib_eq_some_iff.mp hhigh) (nib_eq_some_iff.mp hlow) .nil)

/-- A word that is not plain is a byte without wildcards, or is refused. -/
theorem ofToken_of_not_plain {word : Text} (h : ¬ PlainWord word) :
    (AobPattern.ofToken word).byteArray.length = 1 ∧
      ((AobPattern.ofToken word).valid = true ↔ ReadableWord word) := by
  have hunreadable : ReadableWord word ↔ word.length ≠ 2 ∧ ∀ c ∈ word, isHex c = true :=
    or_iff_right h
  rw [hunreadable]
  unfold AobPattern.ofToken AobPattern.addToken
  split_ifs with hwild
  · refine absurd ?_ h
    rcases hwild with rfl | rfl | rfl
    · exact .inr (.inr ⟨rfl, by decide⟩)
    · exact .inl rfl
    · exact .inr (.inl rfl)
  · split
    · rename_i high low
      refine ⟨rfl, iff_of_false (fun hvalid ↦ h (.inr (.inr ⟨rfl, ?_⟩))) fun hhex ↦ hhex.1 rfl⟩
      have hboth : (nib high).isSome = true ∧ (nib low).isSome = true := by simpa using hvalid
      intro c hc
      rcases List.mem_cons.mp hc with rfl | hc
      · exact hboth.1
      · rw [List.mem_singleton.mp hc]
        exact hboth.2
    · rename_i hpair
      have hlength : word.length ≠ 2 := by
        intro hlength
        obtain ⟨high, low, rfl⟩ := List.length_eq_two.mp hlength
        exact hpair high low rfl
      refine ⟨rfl, ?_⟩
      rw [Bool.true_and, List.all_eq_true]
      exact (and_iff_right hlength).symm

theorem valid_ofToken_iff (word : Text) :
    (AobPattern.ofToken word).valid = true ↔ ReadableWord word := by
  by_cases hplain : PlainWord word
  · obtain ⟨byte, hbyte, -⟩ := hplain.ofToken
    rw [hbyte]
    exact iff_of_true rfl (.inl hplain)
  · exact (ofToken_of_not_plain hplain).2

theorem length_ofToken (word : Text) : (AobPattern.ofToken word).byteArray.length = 1 := by
  by_cases hplain : PlainWord word
  · obtain ⟨byte, hbyte, -⟩ := hplain.ofToken
    rw [hbyte]
    rfl
  · exact (ofToken_of_not_plain hplain).1

/-- A word that is not plain denotes two bytes at least, or nothing. -/
theorem two_le_of_not_plain {word : Text} (h : ¬ PlainWord word) {bytes : List (UInt8 × UInt8)}
    (hbytes : WordDenotes word bytes) : 2 ≤ bytes.length := by
  cases hbytes with
  | wildcard hc =>
    refine absurd ?_ h
    rcases hc with rfl | rfl
    · exact .inl rfl
    · exact .inr (.inl rfl)
  | bytes hword hrun =>
    have hlength := hrun.length_eq
    have hpairs := (exists_bytesDenote_iff word).mp ⟨bytes, hrun⟩
    have hpos := List.length_pos_of_ne_nil hword
    have htwo : word.length ≠ 2 := fun htwo ↦ h (.inr (.inr ⟨htwo, hpairs.2⟩))
    omega

/-! ### Whole patterns -/

theorem exists_denotes_of_mem {words : List Text} {parts : List (List (UInt8 × UInt8))}
    (h : List.Forall₂ WordDenotes words parts) {word : Text} (hword : word ∈ words) :
    ∃ part, WordDenotes word part := by
  induction h with
  | nil => cases hword
  | cons hfirst _ ih =>
    rcases List.mem_cons.mp hword with rfl | hrest
    · exact ⟨_, hfirst⟩
    · exact ih hrest

/-- Every word makes one byte. -/
theorem length_byteArray_parseAOB (text : Text) :
    (parseAOB text).byteArray.length = (tokens text).length := by
  rw [parseAOB_eq]
  simp [List.length_flatMap, length_ofToken]

theorem accepted_iff (text : Text) :
    (parseAOB text).accepted = true ↔ tokens text ≠ [] ∧ ∀ word ∈ tokens text, ReadableWord word := by
  have hempty : (parseAOB text).byteArray = [] ↔ tokens text = [] := by
    rw [← List.length_eq_zero_iff, length_byteArray_parseAOB, List.length_eq_zero_iff]
  rw [AobPattern.accepted, Bool.and_eq_true, decide_eq_true_iff, and_comm]
  refine and_congr (not_congr hempty) ?_
  rw [parseAOB_eq, List.all_eq_true]
  exact forall₂_congr fun word _ ↦ valid_ofToken_iff word

theorem exists_patternDenotes_iff (text : Text) : (∃ bytes, PatternDenotes text bytes) ↔
    tokens text ≠ [] ∧ ∀ word ∈ tokens text, GrammaticalWord word := by
  constructor
  · rintro ⟨bytes, parts, hparts, hwords, -⟩
    refine ⟨fun hnone ↦ hparts ?_, fun word hword ↦ ?_⟩
    · rw [hnone] at hwords
      exact List.forall₂_nil_left_iff.mp hwords
    · obtain ⟨part, hpart⟩ := exists_denotes_of_mem hwords hword
      exact (exists_wordDenotes_iff word).mp ⟨part, hpart⟩
  · rintro ⟨hsome, hwords⟩
    have hparts : ∀ words : List Text, (∀ word ∈ words, GrammaticalWord word) →
        ∃ parts, List.Forall₂ WordDenotes words parts := by
      intro words
      induction words with
      | nil => exact fun _ ↦ ⟨[], .nil⟩
      | cons word rest ih =>
        intro hall
        obtain ⟨part, hpart⟩ := (exists_wordDenotes_iff word).mpr (hall word List.mem_cons_self)
        obtain ⟨parts, hparts⟩ := ih fun other hother ↦ hall other (List.mem_cons_of_mem _ hother)
        exact ⟨part :: parts, .cons hpart hparts⟩
    obtain ⟨parts, hdenote⟩ := hparts (tokens text) hwords
    refine ⟨_, parts, fun hnone ↦ hsome ?_, hdenote, rfl⟩
    rw [hnone] at hdenote
    exact List.forall₂_nil_right_iff.mp hdenote

/-- Plain words are read as what they denote, and nothing else. -/
theorem plain_words_read {words : List Text} (hplain : ∀ word ∈ words, PlainWord word)
    {parts : List (List (UInt8 × UInt8))} (hparts : List.Forall₂ WordDenotes words parts) :
    (words.flatMap fun word ↦ (AobPattern.ofToken word).byteArray) = parts.flatten.map Prod.fst ∧
      (words.flatMap fun word ↦ (AobPattern.ofToken word).byteArrayMask) =
        parts.flatten.map Prod.snd := by
  induction hparts with
  | nil => exact ⟨rfl, rfl⟩
  | @cons word part rest parts hpart _ ih =>
    obtain ⟨byte, htoken, hdenotes⟩ := (hplain word List.mem_cons_self).ofToken
    obtain rfl := (hdenotes part).mp hpart
    obtain ⟨hbytes, hmask⟩ := ih fun other hother ↦ hplain other (List.mem_cons_of_mem _ hother)
    constructor
    · rw [List.flatMap_cons, htoken, hbytes]
      rfl
    · rw [List.flatMap_cons, htoken, hmask]
      rfl

/-- Where a word is not plain, a pattern denotes more bytes than it has words. -/
theorem length_lt_of_not_plain {words : List Text} {parts : List (List (UInt8 × UInt8))}
    (hparts : List.Forall₂ WordDenotes words parts) : words.length ≤ parts.flatten.length ∧
      ((∃ word ∈ words, ¬ PlainWord word) → words.length < parts.flatten.length) := by
  induction hparts with
  | nil => exact ⟨le_rfl, fun ⟨_, hword, _⟩ ↦ absurd hword List.not_mem_nil⟩
  | @cons word part rest parts hpart _ ih =>
    rw [List.flatten_cons, List.length_append, List.length_cons]
    by_cases hplain : PlainWord word
    · obtain ⟨byte, -, hdenotes⟩ := hplain.ofToken
      obtain rfl := (hdenotes part).mp hpart
      rw [List.length_singleton]
      refine ⟨by omega, fun ⟨other, hother, hnot⟩ ↦ ?_⟩
      rcases List.mem_cons.mp hother with rfl | hrest
      · exact absurd hplain hnot
      · have := ih.2 ⟨other, hrest, hnot⟩
        omega
    · have htwo := two_le_of_not_plain hplain hpart
      have := ih.1
      exact ⟨by omega, fun _ ↦ by omega⟩

theorem PlainWord.grammatical {word : Text} (h : PlainWord word) : GrammaticalWord word := by
  rcases h with rfl | rfl | ⟨hlength, hhalves⟩
  · exact .inl rfl
  · exact .inr (.inl rfl)
  · refine .inr (.inr ⟨fun hnil ↦ ?_, by rw [hlength], hhalves⟩)
    rw [hnil] at hlength
    cases hlength

/-- `parseAOB` reads exactly those texts as the grammar has them in which every word is plain, or
one is refused and one is out of the grammar. -/
theorem parseAOB_exact_iff (text : Text) : ParsesExactly text ↔
    (∀ word ∈ tokens text, PlainWord word) ∨
      (∃ word ∈ tokens text, ¬ ReadableWord word) ∧ ∃ word ∈ tokens text, ¬ GrammaticalWord word := by
  constructor
  · rintro ⟨haccepts, hreads⟩
    by_contra hneither
    obtain ⟨hplain, hrefused⟩ := not_or.mp hneither
    obtain ⟨odd, hodd, hnot⟩ : ∃ word ∈ tokens text, ¬ PlainWord word := by
      simpa only [not_forall, exists_prop] using hplain
    have hsome : tokens text ≠ [] := List.ne_nil_of_mem hodd
    rw [accepted_iff, exists_patternDenotes_iff, and_congr_right_iff] at haccepts
    have hboth : (∀ word ∈ tokens text, ReadableWord word) ∧
        ∀ word ∈ tokens text, GrammaticalWord word := by
      by_cases hreadable : ∀ word ∈ tokens text, ReadableWord word
      · exact ⟨hreadable, (haccepts hsome).mp hreadable⟩
      · refine absurd ⟨?_, ?_⟩ hrefused
        · simpa only [not_forall, exists_prop] using hreadable
        · simpa only [not_forall, exists_prop] using mt (haccepts hsome).mpr hreadable
    obtain ⟨bytes, hdenotes⟩ := (exists_patternDenotes_iff text).mpr ⟨hsome, hboth.2⟩
    obtain ⟨hbytes, -⟩ := hreads ((accepted_iff text).mpr ⟨hsome, hboth.1⟩) bytes hdenotes
    obtain ⟨parts, -, hparts, rfl⟩ := hdenotes
    have hlength := (length_lt_of_not_plain hparts).2 ⟨odd, hodd, hnot⟩
    have hcount := congrArg List.length hbytes
    rw [length_byteArray_parseAOB, List.length_map] at hcount
    omega
  · rintro (hplain | ⟨⟨first, hfirst, hunreadable⟩, second, hsecond, hout⟩)
    · refine ⟨?_, fun _ bytes hdenotes ↦ ?_⟩
      · rw [accepted_iff, exists_patternDenotes_iff]
        refine and_congr_right fun _ ↦ iff_of_true (fun word hword ↦ .inl (hplain word hword)) ?_
        exact fun word hword ↦ (hplain word hword).grammatical
      · obtain ⟨parts, -, hparts, rfl⟩ := hdenotes
        rw [parseAOB_eq]
        exact plain_words_read hplain hparts
    · have hrefused : ¬ (parseAOB text).accepted = true := fun h ↦
        hunreadable (((accepted_iff text).mp h).2 first hfirst)
      refine ⟨iff_of_false hrefused fun hdenotes ↦ ?_, fun h ↦ absurd h hrefused⟩
      exact hout (((exists_patternDenotes_iff text).mp hdenotes).2 second hsecond)

/-- Three bytes that are run together are accepted as the last of them. -/
theorem run_together_not_exact :
    ¬ ParsesExactly "488B05".toList ∧ (parseAOB "488B05".toList).accepted = true ∧
      (parseAOB "488B05".toList).byteArray = [0x05] := by
  have haccepted : (parseAOB "488B05".toList).accepted = true := by decide
  have hbytes : (parseAOB "488B05".toList).byteArray = [0x05] := by decide
  refine ⟨fun h ↦ ?_, haccepted, hbytes⟩
  obtain ⟨bytes, hdenotes⟩ := h.accepts.mp haccepted
  have hread := (h.reads haccepted bytes hdenotes).1
  obtain ⟨parts, -, hparts, rfl⟩ := hdenotes
  have hlong : ∃ word ∈ tokens "488B05".toList, ¬ PlainWord word :=
    ⟨"488B05".toList, by decide, by rintro (h | h | ⟨h, -⟩) <;> exact absurd h (by decide)⟩
  have hlength := (length_lt_of_not_plain hparts).2 hlong
  have hcount := congrArg List.length hread
  rw [hbytes, List.length_map] at hcount
  have hwords : (tokens "488B05".toList).length = 1 := by decide
  rw [List.length_singleton] at hcount
  omega

end Cecore.Scanner
