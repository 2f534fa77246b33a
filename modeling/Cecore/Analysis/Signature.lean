import Cecore.Library.Occurrences
import Cecore.Scanner.NaiveScan
import Cecore.Scanner.PatternGrammar
import Mathlib.Data.List.DropRight

/-!
# Signatures of code

`makeSignature` takes whole instructions, with the bytes that move when the program is rebuilt as
wildcards, until they fit the region at one place, and writes the pattern down. What is written
ends with the last byte that is no wildcard, so it may fit where the pattern had no room.
-/

set_option autoImplicit false
set_option relaxedAutoImplicit false

namespace Cecore.Analysis

open Library.Occurrences Scanner

/-! ### The generator -/

/-- `ce::Instruction`, what the generator reads of it. -/
structure Instruction where
  bytes : List UInt8
  ripTarget : ℕ := 0
  dispOffset : ℕ := 0
  dispSize : ℕ := 0
  immOffset : ℕ := 0
  immSize : ℕ := 0
  deriving DecidableEq, Repr

/-- A pattern byte: a concrete value or a wildcard. -/
structure PatByte where
  value : UInt8
  wild : Bool
  deriving DecidableEq, Repr

def PatByte.fits (pattern : PatByte) (byte : UInt8) : Bool := pattern.wild || byte == pattern.value

/-- The value of the immediate, of at most eight bytes. -/
def Instruction.immediate (insn : Instruction) : ℕ :=
  (List.range (min insn.immSize 8)).foldl (fun v b ↦
    v ||| (insn.bytes.getD (insn.immOffset + b) 0).toNat <<< (8 * b)) 0

def Instruction.wildAt (insn : Instruction) (k : ℕ) : Bool :=
  insn.ripTarget ≠ 0 && insn.dispSize ≠ 0 && insn.dispOffset ≤ k &&
      k < insn.dispOffset + insn.dispSize ||
    4 ≤ insn.immSize && insn.immOffset ≤ k && k < insn.immOffset + insn.immSize &&
      0x10000 ≤ insn.immediate && insn.immediate ≤ 0x7fffffffffff

def Instruction.patBytes (insn : Instruction) : List PatByte :=
  insn.bytes.mapIdx fun k byte ↦ ⟨byte, insn.wildAt k⟩

/-- The number of matches up to two, and the first one in place of `firstPos`. -/
def countMatches (pat : List PatByte) (region : List UInt8) (firstPos : ℕ) : ℕ × ℕ :=
  if pat.length = 0 ∨ region.length < pat.length then (0, firstPos)
  else countHits (fun p ↦ fitsFront PatByte.fits pat (region.drop p)) 0 firstPos
    (List.range (region.length + 1 - pat.length))

/-- A hexadecimal digit of `%02X`. -/
def upperDigit (digit : ℕ) : Char := toUpperChar (Nat.digitChar digit)

def PatByte.text (pattern : PatByte) : Text :=
  if pattern.wild then "??".toList
  else [upperDigit (pattern.value.toNat / 16), upperDigit (pattern.value.toNat % 16)]

/-- The pattern without the wildcards at its end. -/
def trimmed (pat : List PatByte) : List PatByte := pat.rdropWhile PatByte.wild

def toAob (pat : List PatByte) : Text := List.intercalate [' '] ((trimmed pat).map PatByte.text)

structure SignatureResult where
  pattern : Text := []
  length : ℕ := 0
  unique : Bool := false
  deriving DecidableEq, Repr

/-- `countMatches(pat, region, firstPos) == 1 && regionBase + firstPos == address`. -/
def onlyAt (region : List UInt8) (regionBase address : UInt64) (pat : List PatByte) : Bool :=
  (countMatches pat region 0).1 == 1 &&
    regionBase + UInt64.ofNat (countMatches pat region 0).2 == address

/-- The loop over the instructions: the pattern, and `out.unique` as it leaves it. -/
def growPattern (region : List UInt8) (regionBase address maxBytes : UInt64) :
    List PatByte → List Instruction → List PatByte × Bool
  | pat, [] => (pat, false)
  | pat, insn :: rest =>
    let pat := pat ++ insn.patBytes
    if (countMatches pat region 0).1 = 1 then (pat, onlyAt region regionBase address pat)
    else if maxBytes.toNat ≤ pat.length then (pat, false)
    else growPattern region regionBase address maxBytes pat rest

/-- `std::min<size_t>(regionSize, 128u * 1024 * 1024)`. -/
def searchSize (regionSize : UInt64) : ℕ := min regionSize.toNat (128 * 1024 * 1024)

/-- The bytes that are decoded. -/
def codeAt (region : List UInt8) (address regionBase maxBytes : UInt64) : List UInt8 :=
  let codeOff := (address - regionBase).toNat
  (region.drop codeOff).take (min (region.length - codeOff) (maxBytes + 16).toNat)

/-- `makeSignature`: `read` brings the bytes the process lets it read, and `disassemble` is the
disassembler. -/
def makeSignature (read : UInt64 → ℕ → Option (List UInt8))
    (disassemble : UInt64 → List UInt8 → List Instruction)
    (address regionBase regionSize maxBytes : UInt64) : SignatureResult :=
  if regionSize = 0 ∨ address < regionBase ∨ regionBase + regionSize ≤ address then {}
  else match read regionBase (searchSize regionSize) with
    | none => {}
    | some region =>
      if region.length ≤ (address - regionBase).toNat then {}
      else
        let insns := disassemble address (codeAt region address regionBase maxBytes)
        let (pat, unique) := growPattern region regionBase address maxBytes [] insns
        { pattern := toAob pat
          length := pat.length
          unique := unique || onlyAt region regionBase address pat }

/-! ### The search of the generator -/

def patternOf (insns : List Instruction) : List PatByte := insns.flatMap Instruction.patBytes

theorem countMatches_eq {pat : List PatByte} (hpat : pat ≠ []) (region : List UInt8) (first : ℕ) :
    countMatches pat region first =
      (min 2 (places PatByte.fits pat region).length,
        (places PatByte.fits pat region).headD first) := by
  rw [countMatches]
  split
  · next h =>
    have hlong : region.length < pat.length := h.resolve_left (by simpa using hpat)
    have hnone : region.length + 1 - pat.length = 0 := by omega
    simp [places, hnone]
  · exact countHits_zero _ _ _

theorem countMatches_eq_one_iff {pat : List PatByte} {region : List UInt8} (hregion : region ≠ []) :
    (countMatches pat region 0).1 = 1 ↔ (places PatByte.fits pat region).length = 1 := by
  by_cases hpat : pat = []
  · have hlength := List.length_pos_of_ne_nil hregion
    have hplaces : places PatByte.fits [] region = List.range (region.length + 1) := by
      simp [places, fitsFront]
    rw [hpat, hplaces, List.length_range, countMatches, if_pos (Or.inl List.length_nil)]
    constructor <;> intro h <;> omega
  · rw [countMatches_eq hpat]
    dsimp only
    omega

theorem patternOf_concat (done : List Instruction) (insn : Instruction) :
    patternOf (done ++ [insn]) = patternOf done ++ insn.patBytes := by
  simp [patternOf]

/-- The loop takes some of the instructions, and passes over none whose pattern matches once. -/
theorem growPattern_prefix (region : List UInt8) (regionBase address maxBytes : UInt64)
    (done rest : List Instruction) : ∃ k,
      (growPattern region regionBase address maxBytes (patternOf done) rest).1 =
        patternOf (done ++ rest.take k) ∧
      ∀ j, 0 < j → j < k → (countMatches (patternOf (done ++ rest.take j)) region 0).1 ≠ 1 := by
  induction rest generalizing done with
  | nil =>
    refine ⟨0, by simp [growPattern], ?_⟩
    intro j _ hj
    omega
  | cons insn rest ih =>
    rw [growPattern, ← patternOf_concat]
    by_cases hone : (countMatches (patternOf (done ++ [insn])) region 0).1 = 1
    · rw [if_pos hone]
      exact ⟨1, by simp, fun j hj hlt ↦ by omega⟩
    · rw [if_neg hone]
      by_cases hfull : maxBytes.toNat ≤ (patternOf (done ++ [insn])).length
      · rw [if_pos hfull]
        exact ⟨1, by simp, fun j hj hlt ↦ by omega⟩
      · rw [if_neg hfull]
        obtain ⟨k, hpat, hearlier⟩ := ih (done ++ [insn])
        refine ⟨k + 1, by simpa using hpat, ?_⟩
        intro j hj hlt
        cases j with
        | zero => omega
        | succ j =>
          cases j with
          | zero => simpa using hone
          | succ j => simpa using hearlier (j + 1) (by omega) (by omega)

/-- What the loop says of its pattern is what the last look says. -/
theorem growPattern_unique {region : List UInt8} {regionBase address maxBytes : UInt64}
    {pat : List PatByte} {insns : List Instruction}
    (h : (growPattern region regionBase address maxBytes pat insns).2 = true) :
    onlyAt region regionBase address
      (growPattern region regionBase address maxBytes pat insns).1 = true := by
  induction insns generalizing pat with
  | nil => simp [growPattern] at h
  | cons insn rest ih =>
    rw [growPattern] at h ⊢
    split at h
    · next hone => rwa [if_pos hone]
    · next hone =>
      rw [if_neg hone]
      split at h
      · simp at h
      · next hfull =>
        rw [if_neg hfull]
        exact ih h

/-! ### The text -/

theorem tokensFrom_word {word : Text} (hword : ∀ c ∈ word, isSpace c = false) (current rest : Text)
    (hany : current ≠ [] ∨ word ≠ []) : tokensFrom current (word ++ ' ' :: rest) =
      (current.reverse ++ word) :: tokens rest := by
  induction word generalizing current with
  | nil =>
    have hcurrent : current ≠ [] := hany.resolve_right (by simp)
    have hspace : isSpace ' ' = true := by decide
    rw [List.nil_append, tokensFrom, if_pos hspace, if_neg hcurrent, List.append_nil, tokens]
  | cons c word ih =>
    have hc : ¬isSpace c = true := by simp [hword c List.mem_cons_self]
    rw [List.cons_append, tokensFrom, if_neg hc,
      ih (fun other hother ↦ hword other (List.mem_cons_of_mem _ hother)) _ (Or.inl (by simp))]
    simp

theorem tokensFrom_last {word : Text} (hword : ∀ c ∈ word, isSpace c = false) (current : Text)
    (hany : current ≠ [] ∨ word ≠ []) : tokensFrom current word = [current.reverse ++ word] := by
  induction word generalizing current with
  | nil =>
    have hcurrent : current ≠ [] := hany.resolve_right (by simp)
    rw [tokensFrom, if_neg hcurrent, List.append_nil]
  | cons c word ih =>
    have hc : ¬isSpace c = true := by simp [hword c List.mem_cons_self]
    rw [tokensFrom, if_neg hc,
      ih (fun other hother ↦ hword other (List.mem_cons_of_mem _ hother)) _ (Or.inl (by simp))]
    simp

/-- Words with a space between them are the tokens of their text. -/
theorem tokens_intercalate {words : List Text} (hwords : ∀ word ∈ words, word ≠ [] ∧
    ∀ c ∈ word, isSpace c = false) : tokens (List.intercalate [' '] words) = words := by
  induction words with
  | nil => rfl
  | cons word rest ih =>
    obtain ⟨hne, hspace⟩ := hwords word List.mem_cons_self
    have hrest := ih fun other hother ↦ hwords other (List.mem_cons_of_mem _ hother)
    cases rest with
    | nil =>
      rw [List.intercalate_singleton, tokens, tokensFrom_last hspace _ (Or.inr hne)]
      rfl
    | cons next rest =>
      rw [List.intercalate_cons_cons, List.append_assoc, List.singleton_append, tokens,
        tokensFrom_word hspace _ _ (Or.inr hne), hrest]
      rfl

theorem nib_upperDigit {digit : ℕ} (h : digit < 16) : nib (upperDigit digit) = some (digit, 0xF) := by
  interval_cases digit <;> rfl

theorem upperDigit_plain {digit : ℕ} (h : digit < 16) :
    isSpace (upperDigit digit) = false ∧ upperDigit digit ≠ '?' := by
  interval_cases digit <;> decide

/-- What a pattern byte reads back as. -/
def PatByte.pair (pattern : PatByte) : UInt8 × UInt8 :=
  if pattern.wild then (0, 0) else (pattern.value, 0xFF)

theorem PatByte.text_word (pattern : PatByte) :
    pattern.text ≠ [] ∧ ∀ c ∈ pattern.text, isSpace c = false := by
  have hlt := pattern.value.toNat_lt
  rw [PatByte.text]
  split
  · exact ⟨by decide, by decide⟩
  · refine ⟨by simp, ?_⟩
    intro c hc
    rcases List.mem_pair.mp hc with rfl | rfl
    · exact (upperDigit_plain (by omega)).1
    · exact (upperDigit_plain (by omega)).1

theorem ofToken_text (pattern : PatByte) : AobPattern.ofToken pattern.text =
    { byteArray := [pattern.pair.1], byteArrayMask := [pattern.pair.2], valid := true } := by
  rw [PatByte.text, PatByte.pair]
  split
  · decide
  · have hlt := pattern.value.toNat_lt
    have hhigh : pattern.value.toNat / 16 < 16 := by omega
    have hlow : pattern.value.toNat % 16 < 16 := by omega
    have hvalue : UInt8.ofNat (pattern.value.toNat / 16 * 16 + pattern.value.toNat % 16) =
        pattern.value := by
      rw [Nat.div_add_mod']
      exact UInt8.ofNat_toNat
    let word := [upperDigit (pattern.value.toNat / 16), upperDigit (pattern.value.toNat % 16)]
    have hplain : ¬(word = "??".toList ∨ word = "?".toList ∨ word = "*".toList) := by
      rintro (h | h | h)
      · exact (upperDigit_plain hhigh).2 (List.cons.inj h).1
      · exact absurd (congrArg List.length h) (by simp [word])
      · exact absurd (congrArg List.length h) (by simp [word])
    rw [AobPattern.ofToken, AobPattern.addToken, if_neg hplain]
    simp [nib_upperDigit hhigh, nib_upperDigit hlow, hvalue]

/-- The text is read back as the trimmed pattern. -/
theorem parseAOB_toAob (pat : List PatByte) : parseAOB (toAob pat) =
    { byteArray := (trimmed pat).map fun pattern ↦ pattern.pair.1
      byteArrayMask := (trimmed pat).map fun pattern ↦ pattern.pair.2
      valid := true } := by
  have htokens : tokens (toAob pat) = (trimmed pat).map PatByte.text := by
    refine tokens_intercalate ?_
    intro word hword
    obtain ⟨pattern, -, rfl⟩ := List.mem_map.mp hword
    exact pattern.text_word
  rw [parseAOB_eq, htokens]
  simp only [List.flatMap_map, List.all_map, Function.comp_def, ofToken_text]
  simp only [← List.map_eq_flatMap]
  simp

/-! ### The scan -/

theorem maskedMatch_pairs (pat : List PatByte) (bytes : List UInt8) :
    maskedMatch bytes (pat.map fun pattern ↦ pattern.pair.1)
      (pat.map fun pattern ↦ pattern.pair.2) = fitsFront PatByte.fits pat bytes := by
  induction pat generalizing bytes with
  | nil => cases bytes <;> rfl
  | cons pattern pat ih =>
    cases bytes with
    | nil => rfl
    | cons byte bytes =>
      have hfull : ∀ b : UInt8, b &&& 0xFF = b := fun b ↦ UInt8.and_neg_one
      rw [List.map_cons, List.map_cons, maskedMatch, ih, fitsFront, PatByte.fits, PatByte.pair]
      cases pattern.wild with
      | true => simp
      | false => simp [hfull, beq_eq_decide]

theorem fitsFront_slice (pat : List PatByte) (region : List UInt8) (place : ℕ) :
    fitsFront PatByte.fits pat (slice region place pat.length) =
      fitsFront PatByte.fits pat (region.drop place) := by
  rw [slice]
  generalize region.drop place = bytes
  induction pat generalizing bytes with
  | nil => rfl
  | cons pattern pat ih =>
    cases bytes with
    | nil => rfl
    | cons byte bytes => simp [fitsFront, ih]

/-- The scanner finds the trimmed pattern wherever it fits. -/
theorem scanBufferAOB_trimmed (simd : SimdMode) (region : List UInt8) (base : ℕ)
    {pat : List PatByte} (hpat : pat ≠ []) :
    scanBufferAOB simd region base (pat.map fun pattern ↦ pattern.pair.1)
        (pat.map fun pattern ↦ pattern.pair.2) =
      (places PatByte.fits pat region).map (emitAt region base pat.length) := by
  rw [scanBufferAOB_eq simd region base (by simpa using hpat) (by simp), List.length_map]
  by_cases hfit : pat.length ≤ region.length
  · have hroom : region.length - pat.length + 1 = region.length + 1 - pat.length := by omega
    rw [strideScan_one hfit, places, hroom]
    simp only [maskedMatch_pairs, fitsFront_slice]
  · have hroom : region.length + 1 - pat.length = 0 := by omega
    rw [strideScan, if_pos (by omega), places, hroom]
    rfl

/-- The text is a pattern, and the scanner finds it in the region once, at the address. -/
def ScansBack (simd : SimdMode) (region : List UInt8) (regionBase address : UInt64) (text : Text) :
    Prop :=
  (parseAOB text).accepted = true ∧
    (scanBufferAOB simd region regionBase.toNat (parseAOB text).byteArray
      (parseAOB text).byteArrayMask).map Hit.address = [address.toNat]

/-- Some byte counts, and what is left when the wildcards at the end are dropped fits no place where
there is no room for them. -/
def TailClear (region : List UInt8) (pat : List PatByte) : Prop :=
  (∃ pattern ∈ pat, pattern.wild = false) ∧
    ∀ place ∈ places PatByte.fits (trimmed pat) region, place + pat.length ≤ region.length

/-- Dropping the wildcards at the end adds the places that have no room for them. -/
theorem mem_places_iff_trimmed {pat : List PatByte} {region : List UInt8} {place : ℕ} :
    place ∈ places PatByte.fits pat region ↔
      place ∈ places PatByte.fits (trimmed pat) region ∧ place + pat.length ≤ region.length := by
  have hsplit : trimmed pat ++ pat.rtakeWhile PatByte.wild = pat := List.rdropWhile_append_rtakeWhile ..
  have hwild : ∀ pattern ∈ pat.rtakeWhile PatByte.wild, ∀ byte, PatByte.fits pattern byte = true := by
    intro pattern hpattern byte
    rw [PatByte.fits, List.mem_rtakeWhile_imp hpattern, Bool.true_or]
  have h : place ∈ places PatByte.fits (trimmed pat ++ _) region ↔ _ := mem_places_append_wild hwild
  rwa [hsplit] at h

theorem trimmed_eq_nil_iff {pat : List PatByte} :
    trimmed pat = [] ↔ ¬∃ pattern ∈ pat, pattern.wild = false := by
  simp [trimmed]

theorem scansBack_iff (simd : SimdMode) {region : List UInt8} {regionBase address : UInt64}
    {pat : List PatByte} {place : ℕ} (honly : places PatByte.fits pat region = [place])
    (hplace : regionBase.toNat + place = address.toNat) :
    ScansBack simd region regionBase address (toAob pat) ↔ TailClear region pat := by
  have hmem : place ∈ places PatByte.fits (trimmed pat) region :=
    (mem_places_iff_trimmed.mp (by simp [honly])).1
  rw [ScansBack, parseAOB_toAob, TailClear]
  dsimp only
  by_cases hany : ∃ pattern ∈ pat, pattern.wild = false
  · have hne : trimmed pat ≠ [] := fun h ↦ trimmed_eq_nil_iff.mp h hany
    have haccepted : AobPattern.accepted
        { byteArray := (trimmed pat).map fun pattern ↦ pattern.pair.1
          byteArrayMask := (trimmed pat).map fun pattern ↦ pattern.pair.2
          valid := true } = true := by
      simp [AobPattern.accepted, hne]
    rw [scanBufferAOB_trimmed simd region _ hne, List.map_map]
    have haddress : ∀ hits : List ℕ,
        hits.map (Hit.address ∘ emitAt region regionBase.toNat (trimmed pat).length) =
          [address.toNat] ↔ hits = [place] := by
      intro hits
      cases hits with
      | nil => simp
      | cons hit rest =>
        cases rest with
        | nil =>
          simp only [List.map_cons, List.map_nil, Function.comp_apply, emitAt, List.cons.injEq,
            and_true]
          omega
        | cons other rest => simp
    rw [haddress, places_eq_singleton_iff]
    constructor
    · rintro ⟨-, -, hall⟩
      refine ⟨hany, ?_⟩
      intro other hother
      rw [hall other hother]
      exact (mem_places_iff_trimmed.mp (by simp [honly])).2
    · rintro ⟨-, hclear⟩
      refine ⟨haccepted, hmem, ?_⟩
      intro other hother
      have hfull : other ∈ places PatByte.fits pat region :=
        mem_places_iff_trimmed.mpr ⟨hother, hclear other hother⟩
      simpa [honly] using hfull
  · have hnil : trimmed pat = [] := trimmed_eq_nil_iff.mpr hany
    rw [hnil]
    constructor
    · rintro ⟨hbad, -⟩
      simp [AobPattern.accepted] at hbad
    · rintro ⟨h, -⟩
      exact absurd h hany

/-! ### The claim of uniqueness -/

/-- How many instructions it takes until their pattern fits the region at one place. -/
def FirstSole (region : List UInt8) (insns : List Instruction) (k : ℕ) : Prop :=
  IsLeast {k | (places PatByte.fits (patternOf (insns.take k)) region).length = 1} k

/-- Where the pattern is said to be at the address only, it fits the region there only, and it is
the pattern of the first instructions for which this can be said of any place. -/
theorem onlyAt_growPattern {region : List UInt8} (hregion : region ≠ [])
    {regionBase address maxBytes : UInt64} {insns : List Instruction}
    (h : onlyAt region regionBase address
      (growPattern region regionBase address maxBytes [] insns).1 = true) :
    ∃ k place, FirstSole region insns k ∧
      (growPattern region regionBase address maxBytes [] insns).1 = patternOf (insns.take k) ∧
      places PatByte.fits (patternOf (insns.take k)) region = [place] ∧
      regionBase + UInt64.ofNat place = address := by
  obtain ⟨k, hpat, hearlier⟩ := growPattern_prefix region regionBase address maxBytes [] insns
  rw [show patternOf [] = [] from rfl, List.nil_append] at hpat
  simp only [List.nil_append] at hearlier
  rw [hpat, onlyAt, Bool.and_eq_true, beq_iff_eq, beq_iff_eq] at h
  obtain ⟨hone, haddress⟩ := h
  have hlength := (countMatches_eq_one_iff hregion).mp hone
  obtain ⟨place, hplace⟩ := List.length_eq_one_iff.mp hlength
  refine ⟨k, place, ⟨hlength, ?_⟩, hpat, hplace, ?_⟩
  · intro j hj
    have hcount := (countMatches_eq_one_iff hregion).mpr hj
    by_contra hlt
    by_cases hzero : j = 0
    · rw [hzero, List.take_zero, show patternOf [] = [] from rfl, countMatches,
        if_pos (Or.inl List.length_nil)] at hcount
      simp at hcount
    · exact hearlier j (by omega) (by omega) hcount
  · have hne : patternOf (insns.take k) ≠ [] := by
      intro hnil
      rw [hnil, countMatches, if_pos (Or.inl List.length_nil)] at hone
      simp at hone
    rw [countMatches_eq hne, hplace] at haddress
    exact haddress

/-- The region the generator looks at is no longer than it says. -/
theorem toNat_regionBase_add {address regionBase regionSize : UInt64} {place : ℕ}
    (hguard : ¬(regionSize = 0 ∨ address < regionBase ∨ regionBase + regionSize ≤ address))
    (hplace : place < regionSize.toNat) (haddress : regionBase + UInt64.ofNat place = address) :
    regionBase.toNat + place = address.toNat := by
  obtain ⟨-, hlow, hhigh⟩ := not_or.mp hguard |>.imp id not_or.mp
  rw [UInt64.lt_iff_toNat_lt] at hlow
  rw [UInt64.le_iff_toNat_le, UInt64.toNat_add] at hhigh
  have hsum := congrArg UInt64.toNat haddress
  rw [UInt64.toNat_add, UInt64.toNat_ofNat'] at hsum
  have hbase := regionBase.toNat_lt
  have hsize := regionSize.toNat_lt
  omega

/-- A signature that is said to be unique scans back to its address alone exactly if the first
instructions that fit the region at one place have a byte that counts, and their bytes up to the
last such one fit nowhere so near the end of the region that the rest has no room. -/
theorem makeSignature_scansBack_iff (simd : SimdMode) {read : UInt64 → ℕ → Option (List UInt8)}
    {disassemble : UInt64 → List UInt8 → List Instruction}
    {address regionBase regionSize maxBytes : UInt64} {region : List UInt8}
    (hread : read regionBase (searchSize regionSize) = some region)
    (hlength : region.length ≤ searchSize regionSize)
    (hunique :
      (makeSignature read disassemble address regionBase regionSize maxBytes).unique = true) :
    ScansBack simd region regionBase address
        (makeSignature read disassemble address regionBase regionSize maxBytes).pattern ↔
      ∀ k, FirstSole region (disassemble address (codeAt region address regionBase maxBytes)) k →
        TailClear region (patternOf
          ((disassemble address (codeAt region address regionBase maxBytes)).take k)) := by
  let insns := disassemble address (codeAt region address regionBase maxBytes)
  let grown := growPattern region regionBase address maxBytes [] insns
  have hguard : ¬(regionSize = 0 ∨ address < regionBase ∨ regionBase + regionSize ≤ address) := by
    intro h
    simp [makeSignature, h] at hunique
  have hinside : ¬region.length ≤ (address - regionBase).toNat := by
    intro h
    simp [makeSignature, hguard, hread, h] at hunique
  have hresult : makeSignature read disassemble address regionBase regionSize maxBytes =
      { pattern := toAob grown.1
        length := grown.1.length
        unique := grown.2 || onlyAt region regionBase address grown.1 } := by
    rw [makeSignature, if_neg hguard, hread]
    dsimp only
    rw [if_neg hinside]
  rw [hresult] at hunique ⊢
  have honly : onlyAt region regionBase address grown.1 = true := by
    rcases (Bool.or_eq_true _ _).mp hunique with h | h
    · exact growPattern_unique h
    · exact h
  have hregion : region ≠ [] := by
    rintro rfl
    exact hinside (Nat.zero_le _)
  obtain ⟨k, place, hfirst, hpat, hplaces, haddress⟩ := onlyAt_growPattern hregion honly
  have hroom : place < regionSize.toNat := by
    have hmem := mem_places.mp (show place ∈ places PatByte.fits (patternOf (insns.take k)) region by
      rw [hplaces]
      exact List.mem_singleton_self place)
    have hne : patternOf (insns.take k) ≠ [] := by
      intro hnil
      rw [← hpat] at hnil
      change onlyAt region regionBase address grown.1 = true at honly
      rw [show grown.1 = [] from hnil, onlyAt, countMatches, if_pos (Or.inl List.length_nil)] at honly
      simp at honly
    have hpos := List.length_pos_of_ne_nil hne
    have hcap : region.length ≤ regionSize.toNat := hlength.trans (min_le_left _ _)
    omega
  have hscan := scansBack_iff simd hplaces (toNat_regionBase_add hguard hroom haddress)
  dsimp only
  rw [show grown.1 = patternOf (insns.take k) from hpat, hscan]
  constructor
  · intro hclear other hother
    rwa [hother.unique hfirst]
  · intro hclear
    exact hclear k hfirst

/-- `mov eax, [rip+0x10]` at `0x400000`, and two bytes that are no instruction. -/
def ripRelativeLoad : List Instruction :=
  [{ bytes := [0x8B, 0x05, 0x10, 0, 0, 0], ripTarget := 0x400016, dispOffset := 2, dispSize := 4 },
    { bytes := [0x8B] }, { bytes := [0x05] }]

theorem makeSignature_scansBack_iff_load :
    ScansBack .avx2 [0x8B, 0x05, 0x10, 0, 0, 0, 0x8B, 0x05] 0x400000 0x400000
        (makeSignature (fun _ _ ↦ some [0x8B, 0x05, 0x10, 0, 0, 0, 0x8B, 0x05])
          (fun _ _ ↦ ripRelativeLoad) 0x400000 0x400000 8 64).pattern ↔
      ∀ k, FirstSole [0x8B, 0x05, 0x10, 0, 0, 0, 0x8B, 0x05] ripRelativeLoad k →
        TailClear [0x8B, 0x05, 0x10, 0, 0, 0, 0x8B, 0x05] (patternOf (ripRelativeLoad.take k)) :=
  @makeSignature_scansBack_iff .avx2 (fun _ _ ↦ some [0x8B, 0x05, 0x10, 0, 0, 0, 0x8B, 0x05])
    (fun _ _ ↦ ripRelativeLoad) 0x400000 0x400000 8 64 _ rfl (by decide) (by decide)

/-- The load is unique as long as its displacement has room, but its text is found at the end of
the region as well. -/
theorem makeSignature_found_twice :
    let signature := makeSignature (fun _ _ ↦ some [0x8B, 0x05, 0x10, 0, 0, 0, 0x8B, 0x05])
      (fun _ _ ↦ ripRelativeLoad) 0x400000 0x400000 8 64
    signature.unique = true ∧ signature.pattern = "8B 05".toList ∧ ∀ simd,
      ¬ScansBack simd [0x8B, 0x05, 0x10, 0, 0, 0, 0x8B, 0x05] 0x400000 0x400000 signature.pattern := by
  have hpattern : (makeSignature (fun _ _ ↦ some [0x8B, 0x05, 0x10, 0, 0, 0, 0x8B, 0x05])
      (fun _ _ ↦ ripRelativeLoad) 0x400000 0x400000 8 64).pattern = "8B 05".toList := by decide
  refine ⟨by decide, hpattern, ?_⟩
  rintro simd ⟨-, hscan⟩
  rw [hpattern] at hscan
  cases simd <;> exact absurd hscan (by decide)

end Cecore.Analysis
