import Cecore.Library.Effects
import Cecore.AutoAsm.Surroundings
import Cecore.AutoAsm.Emit
import Cecore.Scanner.FastScan
import Cecore.Scanner.PatternGrammar

/-!
# Assertions and the scanner

An `ASSERT` compares its pattern on its own, before a guarded block is chosen and again when the
script is carried out: it leaves out the bytes whose mask is zero and compares all others as whole
bytes. The scanner compares every byte under its mask. `assert_agrees_iff` is exactly where both
come to the same: the halves that a wildcard stands for are zero in memory.
-/

set_option autoImplicit false
set_option relaxedAutoImplicit false

namespace Cecore.AutoAsm

open Platform Scanner

/-- A buffer of the target's memory in which the scanner reports the pattern at the address. -/
def ScannerReports (simd : SimdMode) (t : Target) (addr : ℕ) (pattern : AobPattern) : Prop :=
  ∃ (base : ℕ) (buf : List UInt8), t.readWhole base buf.length = some buf ∧
    ∃ hit ∈ scanBufferAOB simd buf base pattern.byteArray pattern.byteArrayMask, hit.address = addr

/-- The line is carried out without an error. -/
def Passes (env : Environment) (script : Script) (rawLine : Text) (run : Run) : Prop :=
  ∃ after, emitLine env script rawLine run = .ok ⟨⟩ after

/-- Whatever a wildcard stands for in a byte that counts is zero in the target. -/
def WildcardsZero (t : Target) (addr : ℕ) (pattern : AobPattern) : Prop :=
  ∀ j < pattern.byteArray.length, pattern.byteArrayMask.getD j 0 ≠ 0 → ∀ byte, t.fetch (addr + j) = some byte →
    byte &&& ~~~ pattern.byteArrayMask.getD j 0 = 0

/-! ### Bytes and masks -/

/-- A byte is its part under a mask and its part under the rest. -/
theorem eq_iff_of_mask {byte value mask : UInt8} (hvalue : value &&& mask = value) :
    (mask = 0 ∨ byte = value) ↔ byte &&& mask = value &&& mask ∧
      (mask ≠ 0 → byte &&& ~~~ mask = 0) := by
  have hparts : byte = byte &&& mask ||| byte &&& ~~~ mask := by
    refine UInt8.toBitVec_inj.mp ?_
    rw [UInt8.toBitVec_or, UInt8.toBitVec_and, UInt8.toBitVec_and, ← BitVec.and_or_distrib_left,
      ← UInt8.toBitVec_or, UInt8.or_not_self, ← UInt8.toBitVec_and, UInt8.and_neg_one]
  constructor
  · rintro (rfl | rfl)
    · rw [UInt8.and_zero, UInt8.and_zero]
      exact ⟨rfl, fun h ↦ absurd rfl h⟩
    · refine ⟨rfl, fun _ ↦ ?_⟩
      rw [← hvalue, UInt8.and_assoc, UInt8.and_not_self, UInt8.and_zero]
  · rintro ⟨hmatch, hrest⟩
    by_cases hmask : mask = 0
    · exact .inl hmask
    · refine .inr ?_
      rw [hparts, hmatch, hrest hmask, hvalue, UInt8.or_zero]

/-- What `nib` says of a half, with the value it leaves for a character that is none. -/
theorem nib_half (c : Char) :
    (nib c).getD (0, 0) = (0, 0) ∨ ∃ d : Fin 16, (nib c).getD (0, 0) = (d.val, 15) := by
  cases hnib : nib c with
  | none => exact .inl rfl
  | some half =>
    obtain ⟨v, m⟩ := half
    cases nib_eq_some_iff.mp hnib with
    | any hc => exact .inl rfl
    | digit hd hc => exact .inr ⟨⟨v, hd⟩, rfl⟩

/-- A token makes no bits that its mask leaves out. -/
theorem ofToken_masked (token : Text) : List.Forall₂ (fun value mask : UInt8 ↦ value &&& mask = value)
    (AobPattern.ofToken token).byteArray (AobPattern.ofToken token).byteArrayMask := by
  have hboth : ∀ d e : Fin 16, UInt8.ofNat (d.val * 16 + e.val) &&& UInt8.ofNat (15 * 16 + 15) =
      UInt8.ofNat (d.val * 16 + e.val) := by decide
  have hhigh : ∀ d : Fin 16, UInt8.ofNat (d.val * 16 + 0) &&& UInt8.ofNat (15 * 16 + 0) =
      UInt8.ofNat (d.val * 16 + 0) := by decide
  have hlow : ∀ e : Fin 16, UInt8.ofNat (0 * 16 + e.val) &&& UInt8.ofNat (0 * 16 + 15) =
      UInt8.ofNat (0 * 16 + e.val) := by decide
  unfold AobPattern.ofToken AobPattern.addToken
  split_ifs
  · exact .cons (UInt8.and_zero) .nil
  · split
    · rename_i high low _
      dsimp only
      refine .cons ?_ .nil
      rcases nib_half high with hnone | ⟨d, hdigit⟩
      · rcases nib_half low with hnone' | ⟨e, hdigit'⟩
        · rw [hnone, hnone']
          rfl
        · rw [hnone, hdigit']
          exact hlow e
      · rcases nib_half low with hnone' | ⟨e, hdigit'⟩
        · rw [hdigit, hnone']
          exact hhigh d
        · rw [hdigit, hdigit']
          exact hboth d e
    · exact .cons (UInt8.and_neg_one) .nil

/-- The bytes of a pattern have no bits that the mask leaves out. -/
theorem parseAOB_masked (text : Text) : List.Forall₂ (fun value mask : UInt8 ↦ value &&& mask = value)
    (parseAOB text).byteArray (parseAOB text).byteArrayMask := by
  rw [parseAOB_eq]
  induction tokens text with
  | nil => exact .nil
  | cons token rest ih => exact List.rel_append (ofToken_masked token) ih

/-- The same, byte by byte. -/
theorem getD_masked (text : Text) {j : ℕ} (hj : j < (parseAOB text).byteArray.length) :
    (parseAOB text).byteArray.getD j 0 &&& (parseAOB text).byteArrayMask.getD j 0 =
      (parseAOB text).byteArray.getD j 0 := by
  have hmasked := parseAOB_masked text
  have hj' : j < (parseAOB text).byteArrayMask.length := hmasked.length_eq ▸ hj
  rw [List.getD_eq_getElem _ _ hj, List.getD_eq_getElem _ _ hj']
  exact (List.forall₂_iff_get.mp hmasked).2 j hj hj'

/-- An assertion finds no mismatch if every byte is left out or equal. -/
theorem firstMismatch_eq_none_iff {index : ℕ} {current pattern mask : List UInt8}
    (hcurrent : current.length = pattern.length) (hmask : mask.length = pattern.length) :
    firstMismatch index current pattern mask = none ↔
      ∀ j < pattern.length, mask.getD j 0 = 0 ∨ current.getD j 0 = pattern.getD j 0 := by
  induction pattern generalizing index current mask with
  | nil =>
    cases current with
    | nil => exact iff_of_true rfl fun j hj ↦ absurd hj (Nat.not_lt_zero j)
    | cons byte current => simp at hcurrent
  | cons value pattern ih =>
    cases current with
    | nil => simp at hcurrent
    | cons byte current =>
      cases mask with
      | nil => simp at hmask
      | cons bits mask =>
        have hsplit : (∀ j < (value :: pattern).length,
            (bits :: mask).getD j 0 = 0 ∨ (byte :: current).getD j 0 = (value :: pattern).getD j 0) ↔
            (bits = 0 ∨ byte = value) ∧
              ∀ j < pattern.length, mask.getD j 0 = 0 ∨ current.getD j 0 = pattern.getD j 0 := by
          constructor
          · intro hall
            exact ⟨hall 0 (Nat.succ_pos _), fun j hj ↦ hall (j + 1) (Nat.succ_lt_succ hj)⟩
          · rintro ⟨hfirst, hrest⟩ j hj
            cases j with
            | zero => exact hfirst
            | succ j => exact hrest j (Nat.lt_of_succ_lt_succ hj)
        have hhead : (bits :: mask).head? = some 0 ∨ byte = value ↔ bits = 0 ∨ byte = value :=
          or_congr_left Option.some_inj
        rw [hsplit, ← @ih (index + 1) _ _ (Nat.succ.inj hcurrent) (Nat.succ.inj hmask), firstMismatch]
        by_cases hfirst : bits = 0 ∨ byte = value
        · rw [if_pos (hhead.mpr hfirst), and_iff_right hfirst, List.tail_cons]
        · rw [if_neg (mt hhead.mp hfirst)]
          exact iff_of_false (Option.some_ne_none _) fun hboth ↦ hfirst hboth.1

/-! ### What is in memory -/

theorem readWhole_eq_some_iff {t : Target} {addr size : ℕ} {bytes : List UInt8} :
    t.readWhole addr size = some bytes ↔ readPrefix t.fetch addr size = bytes ∧ bytes.length = size := by
  have hle := length_readPrefix_le t.fetch addr size
  unfold Target.readWhole Target.read
  by_cases hfault : size ≠ 0 ∧ readPrefix t.fetch addr size = []
  · have hnot : ¬(readPrefix t.fetch addr size = bytes ∧ bytes.length = size) := by
      rintro ⟨rfl, hlength⟩
      rw [hfault.2] at hlength
      exact hfault.1 hlength.symm
    dsimp only
    rw [if_pos hfault]
    exact iff_of_false (by simp) hnot
  · dsimp only
    rw [if_neg hfault]
    dsimp only
    split_ifs with hshort
    · refine iff_of_false (by simp) ?_
      rintro ⟨rfl, hlength⟩
      omega
    · rw [Option.some_inj]
      refine ⟨?_, And.left⟩
      rintro rfl
      exact ⟨rfl, by omega⟩

/-- A part of a buffer that was read is what is read there. -/
theorem readWhole_slice {t : Target} {base offset width : ℕ} {buf : List UInt8}
    (hread : t.readWhole base buf.length = some buf) (hfit : offset + width ≤ buf.length) :
    t.readWhole (base + offset) width = some (slice buf offset width) := by
  obtain ⟨hbytes, -⟩ := readWhole_eq_some_iff.mp hread
  refine readWhole_eq_some_iff.mpr ⟨?_, length_slice hfit⟩
  unfold slice
  rw [← hbytes] at hfit
  conv_rhs => rw [← hbytes]
  exact (slice_readPrefix hfit).symm

/-- The scanner reports an address if the bytes there match under the mask. -/
theorem scannerReports_iff (simd : SimdMode) (t : Target) (addr : ℕ) (text : Text) :
    ScannerReports simd t addr (parseAOB text) ↔ (parseAOB text).byteArray ≠ [] ∧
      ∃ current, t.readWhole addr (parseAOB text).byteArray.length = some current ∧
        maskedMatch current (parseAOB text).byteArray (parseAOB text).byteArrayMask = true := by
  have hmask := length_byteArrayMask_parseAOB text
  constructor
  · rintro ⟨base, buf, hread, hit, hhit, rfl⟩
    have hsome : (parseAOB text).byteArray ≠ [] := by
      intro hnone
      rw [scanBufferAOB, if_pos (.inl hnone)] at hhit
      cases hhit
    obtain ⟨found, -, hmem, hscan⟩ := strideScan_offsets buf base 1 (parseAOB text).byteArray.length
      fun bytes ↦ maskedMatch bytes (parseAOB text).byteArray (parseAOB text).byteArrayMask
    rw [scanBufferAOB_eq simd buf base hsome hmask, hscan] at hhit
    obtain ⟨offset, hoffset, rfl⟩ := List.mem_map.mp hhit
    obtain ⟨hfit, -, hmatch⟩ := (hmem offset).mp hoffset
    exact ⟨hsome, _, readWhole_slice hread hfit, hmatch⟩
  · rintro ⟨hsome, current, hread, hmatch⟩
    have hlength := (readWhole_eq_some_iff.mp hread).2
    obtain ⟨found, -, hmem, hscan⟩ := strideScan_offsets current addr 1 (parseAOB text).byteArray.length
      fun bytes ↦ maskedMatch bytes (parseAOB text).byteArray (parseAOB text).byteArrayMask
    have hwhole : slice current 0 (parseAOB text).byteArray.length = current := by
      rw [← hlength]
      exact List.take_length
    have hzero : 0 ∈ found := by
      refine (hmem 0).mpr ⟨by omega, dvd_zero _, ?_⟩
      rw [hwhole]
      exact hmatch
    refine ⟨addr, current, hlength ▸ hread, emitAt current addr (parseAOB text).byteArray.length 0, ?_, rfl⟩
    rw [scanBufferAOB_eq simd current addr hsome hmask, hscan]
    exact List.mem_map_of_mem hzero

/-! ### An assertion -/

/-- The tests of an assertion with an address and a pattern. -/
theorem checkAssert_ok_iff {symbols : Symbols} {t : Target} {detail : UInt8 → UInt8 → Text}
    {args addrText bytesText : Text} (hargs : cutAt ',' args = some (addrText, bytesText)) :
    (∃ addrExpr, checkAssert symbols t detail args = .ok addrExpr) ↔
      symbols.resolveAddress (trim addrText) ≠ 0 ∧
        (parseAOB (dropDoubleQuotes (trim bytesText))).byteArray ≠ [] ∧
        ∃ current, t.readWhole (symbols.resolveAddress (trim addrText))
            (parseAOB (dropDoubleQuotes (trim bytesText))).byteArray.length = some current ∧
          firstMismatch 0 current (parseAOB (dropDoubleQuotes (trim bytesText))).byteArray
            (parseAOB (dropDoubleQuotes (trim bytesText))).byteArrayMask = none := by
  unfold checkAssert
  rw [hargs]
  dsimp only
  by_cases haddr : symbols.resolveAddress (trim addrText) = 0
  · rw [if_pos haddr]
    exact iff_of_false (by simp) fun h ↦ h.1 haddr
  rw [if_neg haddr]
  by_cases hbytes : (parseAOB (dropDoubleQuotes (trim bytesText))).byteArray = []
  · rw [if_pos hbytes]
    exact iff_of_false (by simp) fun h ↦ h.2.1 hbytes
  rw [if_neg hbytes, and_iff_right haddr, and_iff_right hbytes]
  cases t.readWhole (symbols.resolveAddress (trim addrText))
      (parseAOB (dropDoubleQuotes (trim bytesText))).byteArray.length with
  | none => exact iff_of_false (by simp) (by simp)
  | some current =>
    dsimp only
    cases hmismatch : firstMismatch 0 current (parseAOB (dropDoubleQuotes (trim bytesText))).byteArray
        (parseAOB (dropDoubleQuotes (trim bytesText))).byteArrayMask with
    | none => exact iff_of_true ⟨_, rfl⟩ ⟨current, rfl, hmismatch⟩
    | some mismatch =>
      refine iff_of_false (by simp) ?_
      rintro ⟨other, hother, hnone⟩
      rw [← Option.some.inj hother, hmismatch] at hnone
      cases hnone

/-- An assertion passes if the scanner reports the address and whatever a wildcard stands for is
zero. -/
theorem checkAssert_iff_reports {symbols : Symbols} {t : Target} {detail : UInt8 → UInt8 → Text}
    {args addrText bytesText : Text} (hargs : cutAt ',' args = some (addrText, bytesText))
    (simd : SimdMode) :
    (∃ addrExpr, checkAssert symbols t detail args = .ok addrExpr) ↔
      ScannerReports simd t (symbols.resolveAddress (trim addrText))
          (parseAOB (dropDoubleQuotes (trim bytesText))) ∧
        symbols.resolveAddress (trim addrText) ≠ 0 ∧
        WildcardsZero t (symbols.resolveAddress (trim addrText))
          (parseAOB (dropDoubleQuotes (trim bytesText))) := by
  rw [checkAssert_ok_iff hargs, scannerReports_iff]
  have hmask := length_byteArrayMask_parseAOB (dropDoubleQuotes (trim bytesText))
  have hmasked := @getD_masked (dropDoubleQuotes (trim bytesText))
  unfold WildcardsZero
  generalize parseAOB (dropDoubleQuotes (trim bytesText)) = pattern at hmask hmasked ⊢
  generalize symbols.resolveAddress (trim addrText) = addr
  have hcompare : ∀ current, t.readWhole addr pattern.byteArray.length = some current →
      (firstMismatch 0 current pattern.byteArray pattern.byteArrayMask = none ↔
        maskedMatch current pattern.byteArray pattern.byteArrayMask = true ∧
          ∀ j < pattern.byteArray.length, pattern.byteArrayMask.getD j 0 ≠ 0 → ∀ byte,
            t.fetch (addr + j) = some byte → byte &&& ~~~ pattern.byteArrayMask.getD j 0 = 0) := by
    intro current hread
    obtain ⟨hbytes, hlength⟩ := readWhole_eq_some_iff.mp hread
    have hfetch : ∀ j < pattern.byteArray.length, t.fetch (addr + j) = some (current.getD j 0) := by
      intro j hj
      rw [List.getD_eq_getElem _ _ (by omega), ← List.getElem?_eq_getElem, ← hbytes]
      exact (getElem?_readPrefix (by rw [hbytes]; omega)).symm
    rw [firstMismatch_eq_none_iff hlength hmask, maskedMatch_iff hlength hmask, ← forall₂_and]
    refine forall₂_congr fun j hj ↦ ?_
    rw [eq_iff_of_mask (hmasked hj), hfetch j hj]
    simp only [Option.some_inj, forall_eq']
  constructor
  · rintro ⟨haddr, hsome, current, hread, hnone⟩
    obtain ⟨hmatch, hzero⟩ := (hcompare current hread).mp hnone
    exact ⟨⟨hsome, current, hread, hmatch⟩, haddr, hzero⟩
  · rintro ⟨⟨hsome, current, hread, hmatch⟩, haddr, hzero⟩
    exact ⟨haddr, hsome, current, hread, (hcompare current hread).mpr ⟨hmatch, hzero⟩⟩

theorem unmark_eq_some {line : Text} {marks : List (Text × (Text → Line))} {found : Line}
    (h : unmark line marks = some found) :
    ∃ mark ∈ marks, startsWith line mark.1 = true ∧ found = mark.2 (line.drop mark.1.length) := by
  induction marks with
  | nil => cases h
  | cons mark rest ih =>
    rw [unmark] at h
    split_ifs at h with hstart
    · exact ⟨mark, List.mem_cons_self, hstart, (Option.some.inj h).symm⟩
    · obtain ⟨other, hother, hfound⟩ := ih h
      exact ⟨other, List.mem_cons_of_mem _ hother, hfound⟩

/-- A line that is an assertion has its marker in front. -/
theorem startsWith_of_classify {line args : Text} (hline : classify line = .assert args) :
    startsWith line "__ASSERT__:".toList = true ∧ args = line.drop 11 := by
  unfold classify at hline
  by_cases hlabel : isSimpleLabelDefinition line = true
  · rw [if_pos hlabel] at hline
    cases hline
  rw [if_neg hlabel] at hline
  cases hunmark : unmark line markers with
  | none =>
    rw [hunmark] at hline
    dsimp only at hline
    split_ifs at hline
  | some found =>
    rw [hunmark] at hline
    obtain ⟨mark, hmark, hstart, hfound⟩ := unmark_eq_some hunmark
    rw [show found = Line.assert args from hline] at hfound
    simp only [markers, List.mem_cons, List.not_mem_nil, or_false] at hmark
    rcases hmark with rfl | rfl | rfl | rfl | rfl | rfl | rfl | rfl | rfl | rfl | rfl | rfl | rfl
    case inr.inl => exact ⟨hstart, Line.assert.inj hfound⟩
    all_goals cases hfound

/-- Among the lines of a branch, those that are assertions decide whether it is taken. -/
theorem tryBranchFails_eq_none_iff {symbols : Symbols} {t : Target} {rawLine args : Text}
    (hline : classify (trim rawLine) = .assert args) :
    tryBranchFails symbols (some t) [rawLine] = none ↔
      ∃ addrExpr, checkAssert symbols t (fun _ _ ↦ []) args = .ok addrExpr := by
  obtain ⟨hstart, rfl⟩ := startsWith_of_classify hline
  unfold tryBranchFails
  dsimp only
  rw [List.findSome?_cons, if_pos hstart]
  cases checkAssert symbols t (fun _ _ ↦ []) ((trim rawLine).drop 11) with
  | ok addrExpr => exact iff_of_true rfl ⟨addrExpr, rfl⟩
  | error reason => exact iff_of_false (by simp) (by simp)

theorem passes_iff {env : Environment} {script : Script} {rawLine args : Text} {run : Run}
    (hline : classify (trim rawLine) = .assert args) : Passes env script rawLine run ↔
      ∃ addrExpr, checkAssert (run.symbols script) run.target (fun expected actual ↦
        ": expected ".toList ++ hexByte expected ++ ", got ".toList ++ hexByte actual) args =
          .ok addrExpr := by
  have hemit : emitLine env script rawLine = emitAssert script args := by
    unfold emitLine
    dsimp only
    rw [hline]
  unfold Passes
  rw [hemit]
  cases hcheck : checkAssert (run.symbols script) run.target (fun expected actual ↦
      ": expected ".toList ++ hexByte expected ++ ", got ".toList ++ hexByte actual) args with
  | ok addrExpr =>
    have hok : emitAssert script args run =
        .ok ⟨⟩ { run with log := run.log ++ ["ASSERT OK: ".toList ++ addrExpr] } := by
      rw [emitAssert, Library.Effects.bind_apply, Library.Effects.get_apply]
      dsimp only
      rw [hcheck]
      rfl
    exact iff_of_true ⟨_, hok⟩ ⟨addrExpr, rfl⟩
  | error reason =>
    have hfail : emitAssert script args run = .error ⟨false, reason⟩ run := by
      rw [emitAssert, Library.Effects.bind_apply, Library.Effects.get_apply]
      dsimp only
      rw [hcheck]
      rfl
    refine iff_of_false ?_ (by simp)
    rintro ⟨after, hafter⟩
    rw [hfail] at hafter
    cases hafter

/-- An assertion agrees with the scanner, before a guarded block is chosen and when the script is
carried out, exactly if the scanner reports nothing at the address, or the address is not zero and
in memory the halves that a wildcard stands for are zero. -/
theorem assert_agrees_iff (env : Environment) (script : Script) (simd : SimdMode) (symbols : Symbols)
    (run : Run) (addr : ℕ) {rawLine args addrText bytesText : Text}
    (hline : classify (trim rawLine) = .assert args)
    (hargs : cutAt ',' args = some (addrText, bytesText))
    (htry : symbols.resolveAddress (trim addrText) = addr)
    (hrun : (run.symbols script).resolveAddress (trim addrText) = addr) :
    ((tryBranchFails symbols (some run.target) [rawLine] = none ↔
        ScannerReports simd run.target addr (parseAOB (dropDoubleQuotes (trim bytesText)))) ∧
      (Passes env script rawLine run ↔
        ScannerReports simd run.target addr (parseAOB (dropDoubleQuotes (trim bytesText))))) ↔
      ¬ ScannerReports simd run.target addr (parseAOB (dropDoubleQuotes (trim bytesText))) ∨
        addr ≠ 0 ∧ WildcardsZero run.target addr (parseAOB (dropDoubleQuotes (trim bytesText))) := by
  rw [tryBranchFails_eq_none_iff hline, passes_iff hline, checkAssert_iff_reports hargs simd,
    checkAssert_iff_reports hargs simd, htry, hrun, and_self_iff, and_iff_left_iff_imp]
  exact imp_iff_not_or

/-- A pattern with a wildcard for half a byte, over zeros. -/
theorem assert_zeros_agrees :
    let run : Run := { target := onePage, registry := {}, labels := [], log := [] }
    (tryBranchFails ⟨[], [], [], fun _ ↦ none⟩ (some onePage) ["__ASSERT__:1000,?? 0? 00".toList] = none ↔
        ScannerReports .avx2 onePage 0x1000 (parseAOB "?? 0? 00".toList)) ∧
      (Passes plainEnvironment ⟨false, [], []⟩ "__ASSERT__:1000,?? 0? 00".toList run ↔
        ScannerReports .avx2 onePage 0x1000 (parseAOB "?? 0? 00".toList)) := by
  intro run
  refine (assert_agrees_iff plainEnvironment ⟨false, [], []⟩ .avx2 ⟨[], [], [], fun _ ↦ none⟩ run 0x1000
    (by decide : classify (trim "__ASSERT__:1000,?? 0? 00".toList) = .assert "1000,?? 0? 00".toList)
    (by decide : cutAt ',' "1000,?? 0? 00".toList = some ("1000".toList, "?? 0? 00".toList))
    (by decide) (by decide)).mpr (.inr ⟨by decide, fun j hj _ byte hbyte ↦ ?_⟩)
  have hzero : byte = 0 := by
    unfold Target.fetch at hbyte
    split_ifs at hbyte
    change (if 0x1000 ≤ 0x1000 + j ∧ 0x1000 + j < 0x2000 then some (0 : UInt8) else none) = some byte at hbyte
    split_ifs at hbyte
    exact (Option.some.inj hbyte).symm
  rw [hzero]
  exact UInt8.zero_and

/-- `4?` in memory as `4A`: the scanner reports it, and the assertion fails. -/
theorem assert_half_differs :
    let t := onePage.poke 0x1000 [0x4A]
    let run : Run := { target := t, registry := {}, labels := [], log := [] }
    ScannerReports .scalar t 0x1000 (parseAOB "4?".toList) ∧
      tryBranchFails ⟨[], [], [], fun _ ↦ none⟩ (some t) ["__ASSERT__:1000,4?".toList] =
        some "ASSERT failed at 1000+0".toList ∧
      ¬ Passes plainEnvironment ⟨false, [], []⟩ "__ASSERT__:1000,4?".toList run := by
  intro t run
  refine ⟨⟨0x1000, [0x4A], by decide, ⟨0x1000, [0x4A]⟩, by decide, rfl⟩,
    by decide, fun hpasses ↦ ?_⟩
  have hline : classify (trim "__ASSERT__:1000,4?".toList) = .assert "1000,4?".toList := by decide
  obtain ⟨addrExpr, hok⟩ := (passes_iff hline).mp hpasses
  have hfails : (checkAssert ⟨[], [], [], fun _ ↦ none⟩ t (fun expected actual ↦
      ": expected ".toList ++ hexByte expected ++ ", got ".toList ++ hexByte actual)
        "1000,4?".toList).toBool = false := by decide
  have hsame : (checkAssert ⟨[], [], [], fun _ ↦ none⟩ t (fun expected actual ↦
      ": expected ".toList ++ hexByte expected ++ ", got ".toList ++ hexByte actual)
        "1000,4?".toList) = .ok addrExpr := hok
  rw [hsame] at hfails
  cases hfails

end Cecore.AutoAsm
