import Cecore.Core.Digits
import Cecore.Core.Types
import Cecore.Library.LittleEndian

/-!
# Value codecs

`ValueCodec` of `core/value_codec.hpp`, the transform between the value a user means and the bytes in
memory, and the two functions of `core/value_transform.hpp` that apply it together with the byte
order of the target. At each of the four widths the two directions undo each other, for one codec
and for any sequence of them, and a codec is read back from its description.
-/

set_option autoImplicit false
set_option relaxedAutoImplicit false

namespace Cecore

open Library.LittleEndian

/-- `ValueCodec::Op`. -/
inductive CodecOp
  | none
  | xor
  | add
  | rol
  | ror
  deriving DecidableEq, Repr

structure ValueCodec where
  op : CodecOp := .none
  key : BitVec 64 := 0
  deriving DecidableEq, Repr

/-- The widths in bytes that a scalar can have. -/
def IsWidth (bytes : ℕ) : Prop := bytes = 1 ∨ bytes = 2 ∨ bytes = 4 ∨ bytes = 8

namespace ValueCodec

def maskFor (bytes : ℕ) : BitVec 64 :=
  if 8 ≤ bytes then BitVec.allOnes 64 else (1 <<< (bytes * 8)) - 1

def rotl (v : BitVec 64) (n bytes : ℕ) : BitVec 64 :=
  let w := bytes * 8
  let n := n % w
  let m := maskFor bytes
  let v := v &&& m
  if n ≠ 0 then (v <<< n ||| v >>> (w - n)) &&& m else v

def rotr (v : BitVec 64) (n bytes : ℕ) : BitVec 64 :=
  let w := bytes * 8
  let n := n % w
  let m := maskFor bytes
  let v := v &&& m
  if n ≠ 0 then (v >>> n ||| v <<< (w - n)) &&& m else v

/-- `static_cast<unsigned>(key)`. -/
def count (codec : ValueCodec) : ℕ := codec.key.toNat % 2 ^ 32

def encode (codec : ValueCodec) (logical : BitVec 64) (bytes : ℕ) : BitVec 64 :=
  let m := maskFor bytes
  let v := logical &&& m
  match codec.op with
  | .none => v
  | .xor => (v ^^^ codec.key) &&& m
  | .add => (v + codec.key) &&& m
  | .rol => rotl v codec.count bytes
  | .ror => rotr v codec.count bytes

def decode (codec : ValueCodec) (stored : BitVec 64) (bytes : ℕ) : BitVec 64 :=
  let m := maskFor bytes
  let v := stored &&& m
  match codec.op with
  | .none => v
  | .xor => (v ^^^ codec.key) &&& m
  | .add => (v - codec.key) &&& m
  | .rol => rotr v codec.count bytes
  | .ror => rotl v codec.count bytes

def active (codec : ValueCodec) : Bool := codec.op ≠ .none

/-- The text as far as a C string goes. -/
def cString (text : Text) : Text := text.takeWhile (· ≠ Char.ofNat 0)

def parse (spec : Text) : Option ValueCodec :=
  match spec.dropWhile (· ≠ ':') with
  | [] => none
  | _ :: arg =>
    let name := spec.takeWhile (· ≠ ':')
    if arg = [] then none
    else match stoull 0 (cString arg) with
      | some (key, []) =>
        if name = "xor".toList then some ⟨.xor, BitVec.ofNat 64 key⟩
        else if name = "add".toList then some ⟨.add, BitVec.ofNat 64 key⟩
        else if name = "rol".toList then some ⟨.rol, BitVec.ofNat 64 key⟩
        else if name = "ror".toList then some ⟨.ror, BitVec.ofNat 64 key⟩
        else none
      | _ => none

def describe (codec : ValueCodec) : Text :=
  match codec.op with
  | .none => "none".toList
  | .xor => "xor:0x".toList ++ hex codec.key.toNat
  | .add => "add:".toList ++ decimal codec.key.toNat
  | .rol => "rol:".toList ++ decimal codec.key.toNat
  | .ror => "ror:".toList ++ decimal codec.key.toNat

end ValueCodec

/-! ### Scalars in memory -/

/-- The width of a scalar type, zero for the others. -/
def scalarWidth : ValueType → ℕ
  | .byte => 1
  | .int16 => 2
  | .int32 | .float => 4
  | .int64 | .double | .pointer => 8
  | _ => 0

def isIntegerScalar (type : ValueType) : Bool :=
  type = .byte || type = .int16 || type = .int32 || type = .int64

/-- The bytes of a scalar in the other byte order, if the target is big-endian. -/
def inOrder (bigEndian : Bool) (bytes : List UInt8) : List UInt8 :=
  if bigEndian && decide (1 < bytes.length) then bytes.reverse else bytes

def decodeScalarBits (type : ValueType) (stored : List UInt8) (bigEndian : Bool)
    (codec : ValueCodec) : BitVec 64 :=
  let w := scalarWidth type
  if w = 0 then 0
  else
    let raw := BitVec.ofNat 64 (leNat (inOrder bigEndian (stored.take w)))
    if codec.active && isIntegerScalar type then codec.decode raw w else raw

/-- `encodeScalarBits`: the bytes to write. -/
def encodeScalarBits (type : ValueType) (logicalBits : BitVec 64) (bigEndian : Bool)
    (codec : ValueCodec) : List UInt8 :=
  let w := scalarWidth type
  let raw := if codec.active && isIntegerScalar type then codec.encode logicalBits w else logicalBits
  inOrder bigEndian (toLE w raw.toNat)

/-! ### Bits of a width -/

/-- Only bits of the width are set. -/
def Within (bytes : ℕ) (v : BitVec 64) : Prop := ∀ i, bytes * 8 ≤ i → v.getLsbD i = false

namespace ValueCodec

variable {bytes : ℕ} {v : BitVec 64}

theorem IsWidth.le {bytes : ℕ} (h : IsWidth bytes) : 0 < bytes ∧ bytes ≤ 8 := by
  unfold IsWidth at h
  omega

theorem getLsbD_maskFor (bytes i : ℕ) :
    (maskFor bytes).getLsbD i = (decide (i < 64) && decide (i < bytes * 8)) := by
  unfold maskFor
  split_ifs with h
  · rw [BitVec.getLsbD_allOnes]
    by_cases hi : i < 64
    · simp [hi, show i < bytes * 8 by omega]
    · simp [hi]
  · have hone : (1 <<< (bytes * 8) : BitVec 64) - 1 = BitVec.ofNat 64 (2 ^ (bytes * 8) - 1) := by
      interval_cases bytes <;> decide
    rw [hone, BitVec.getLsbD_ofNat, Nat.testBit_two_pow_sub_one]

theorem within_and (v : BitVec 64) (bytes : ℕ) : Within bytes (v &&& maskFor bytes) := by
  intro i hi
  rw [BitVec.getLsbD_and, getLsbD_maskFor, decide_eq_false (by omega : ¬i < bytes * 8)]
  simp

theorem eq_of_within {x y : BitVec 64} (hx : Within bytes x) (hy : Within bytes y)
    (h : ∀ i < bytes * 8, x.getLsbD i = y.getLsbD i) : x = y := by
  refine BitVec.eq_of_getLsbD_eq fun i _ ↦ ?_
  by_cases hi : i < bytes * 8
  · exact h i hi
  · rw [hx i (by omega), hy i (by omega)]

theorem getLsbD_and_maskFor (hwidth : IsWidth bytes) {i : ℕ} (hi : i < bytes * 8) :
    (v &&& maskFor bytes).getLsbD i = v.getLsbD i := by
  have hle := IsWidth.le hwidth
  rw [BitVec.getLsbD_and, getLsbD_maskFor, decide_eq_true (by omega), decide_eq_true hi,
    Bool.and_true, Bool.and_true]

/-! ### Rotations -/

/-- Rotating to the left takes each bit from `n` places further down. -/
theorem getLsbD_rotl (hwidth : IsWidth bytes) (n : ℕ) {i : ℕ} (hi : i < bytes * 8) :
    (rotl v n bytes).getLsbD i =
      v.getLsbD ((i + bytes * 8 - n % (bytes * 8)) % (bytes * 8)) := by
  have hle := IsWidth.le hwidth
  have hn : n % (bytes * 8) < bytes * 8 := Nat.mod_lt n (by omega)
  unfold rotl
  dsimp only
  set w := bytes * 8
  set turn := n % w
  by_cases hturn : turn = 0
  · rw [if_neg (by omega), hturn, Nat.sub_zero, Nat.add_mod_right, Nat.mod_eq_of_lt hi,
      getLsbD_and_maskFor hwidth hi]
  · rw [if_pos hturn, getLsbD_and_maskFor hwidth hi, BitVec.getLsbD_or, BitVec.getLsbD_shiftLeft,
      BitVec.getLsbD_ushiftRight, decide_eq_true (by omega : i < 64), Bool.true_and]
    by_cases hlow : i < turn
    · rw [decide_eq_true hlow, Bool.not_true, Bool.false_and, Bool.false_or,
        getLsbD_and_maskFor hwidth (by omega), Nat.mod_eq_of_lt (by omega)]
      congr 1
      omega
    · have hmod : (i + w - turn) % w = i - turn := by
        rw [show i + w - turn = i - turn + w by omega, Nat.add_mod_right, Nat.mod_eq_of_lt (by omega)]
      rw [decide_eq_false hlow, Bool.not_false, Bool.true_and,
        within_and v bytes (w - turn + i) (by omega), Bool.or_false, getLsbD_and_maskFor hwidth (by omega), hmod]

/-- Rotating to the right takes each bit from `n` places further up. -/
theorem getLsbD_rotr (hwidth : IsWidth bytes) (n : ℕ) {i : ℕ} (hi : i < bytes * 8) :
    (rotr v n bytes).getLsbD i = v.getLsbD ((i + n % (bytes * 8)) % (bytes * 8)) := by
  have hle := IsWidth.le hwidth
  have hn : n % (bytes * 8) < bytes * 8 := Nat.mod_lt n (by omega)
  unfold rotr
  dsimp only
  set w := bytes * 8
  set turn := n % w
  by_cases hturn : turn = 0
  · rw [if_neg (by omega), hturn, Nat.add_zero, Nat.mod_eq_of_lt hi, getLsbD_and_maskFor hwidth hi]
  · rw [if_pos hturn, getLsbD_and_maskFor hwidth hi, BitVec.getLsbD_or, BitVec.getLsbD_shiftLeft,
      BitVec.getLsbD_ushiftRight, decide_eq_true (by omega : i < 64), Bool.true_and]
    by_cases hlow : i < w - turn
    · rw [decide_eq_true hlow, Bool.not_true, Bool.false_and, Bool.or_false,
        getLsbD_and_maskFor hwidth (by omega), Nat.mod_eq_of_lt (by omega), Nat.add_comm]
    · have hmod : (i + turn) % w = i - (w - turn) := by
        rw [show i + turn = i - (w - turn) + w by omega, Nat.add_mod_right,
          Nat.mod_eq_of_lt (by omega)]
      rw [decide_eq_false hlow, Bool.not_false, Bool.true_and, within_and v bytes _ (by omega),
        Bool.false_or, getLsbD_and_maskFor hwidth (by omega), hmod]

theorem within_rotl (v : BitVec 64) (n bytes : ℕ) : Within bytes (rotl v n bytes) := by
  unfold rotl
  dsimp only
  split_ifs
  · exact within_and _ bytes
  · exact within_and _ bytes

theorem within_rotr (v : BitVec 64) (n bytes : ℕ) : Within bytes (rotr v n bytes) := by
  unfold rotr
  dsimp only
  split_ifs
  · exact within_and _ bytes
  · exact within_and _ bytes

theorem rotr_rotl (hwidth : IsWidth bytes) (hv : Within bytes v) (n : ℕ) :
    rotr (rotl v n bytes) n bytes = v := by
  have hle := IsWidth.le hwidth
  have hn : n % (bytes * 8) < bytes * 8 := Nat.mod_lt n (by omega)
  refine eq_of_within (within_rotr _ n bytes) hv fun i hi ↦ ?_
  rw [getLsbD_rotr hwidth n hi, getLsbD_rotl hwidth n (Nat.mod_lt _ (by omega))]
  congr 1
  set w := bytes * 8
  by_cases hwrap : i + n % w < w
  · rw [Nat.mod_eq_of_lt hwrap, show i + n % w + w - n % w = i + w by omega, Nat.add_mod_right,
      Nat.mod_eq_of_lt hi]
  · rw [Nat.mod_eq_sub_mod (by omega : w ≤ i + n % w),
      Nat.mod_eq_of_lt (by omega : i + n % w - w < w),
      show i + n % w - w + w - n % w = i by omega, Nat.mod_eq_of_lt hi]

theorem rotl_rotr (hwidth : IsWidth bytes) (hv : Within bytes v) (n : ℕ) :
    rotl (rotr v n bytes) n bytes = v := by
  have hle := IsWidth.le hwidth
  have hn : n % (bytes * 8) < bytes * 8 := Nat.mod_lt n (by omega)
  refine eq_of_within (within_rotl _ n bytes) hv fun i hi ↦ ?_
  rw [getLsbD_rotl hwidth n hi, getLsbD_rotr hwidth n (Nat.mod_lt _ (by omega))]
  congr 1
  set w := bytes * 8
  by_cases hwrap : i < n % w
  · rw [Nat.mod_eq_of_lt (by omega : i + w - n % w < w),
      show i + w - n % w + n % w = i + w by omega, Nat.add_mod_right, Nat.mod_eq_of_lt hi]
  · rw [show i + w - n % w = i - n % w + w by omega, Nat.add_mod_right,
      Nat.mod_eq_of_lt (by omega : i - n % w < w), show i - n % w + n % w = i by omega,
      Nat.mod_eq_of_lt hi]

/-! ### One codec -/

theorem toNat_and_maskFor (hwidth : IsWidth bytes) (v : BitVec 64) :
    (v &&& maskFor bytes).toNat = v.toNat % 2 ^ (bytes * 8) := by
  have hle := IsWidth.le hwidth
  refine Nat.eq_of_testBit_eq fun i ↦ ?_
  rw [BitVec.testBit_toNat, Nat.testBit_mod_two_pow, BitVec.testBit_toNat]
  by_cases hi : i < bytes * 8
  · rw [getLsbD_and_maskFor hwidth hi, decide_eq_true hi, Bool.true_and]
  · rw [within_and v bytes i (by omega), decide_eq_false hi, Bool.false_and]

theorem within_iff_and (hwidth : IsWidth bytes) : Within bytes v ↔ v &&& maskFor bytes = v := by
  refine ⟨fun hv ↦ eq_of_within (within_and v bytes) hv fun i hi ↦ getLsbD_and_maskFor hwidth hi,
    fun hv ↦ ?_⟩
  rw [← hv]
  exact within_and v bytes

theorem within_iff_lt (hwidth : IsWidth bytes) : Within bytes v ↔ v.toNat < 2 ^ (bytes * 8) := by
  rw [within_iff_and hwidth, ← BitVec.toNat_inj, toNat_and_maskFor hwidth]
  refine ⟨fun h ↦ ?_, Nat.mod_eq_of_lt⟩
  rw [← h]
  exact Nat.mod_lt _ (Nat.two_pow_pos _)

theorem within_encode (codec : ValueCodec) (v : BitVec 64) (bytes : ℕ) :
    Within bytes (codec.encode v bytes) := by
  unfold encode
  dsimp only
  split
  · exact within_and _ bytes
  · exact within_and _ bytes
  · exact within_and _ bytes
  · exact within_rotl _ _ bytes
  · exact within_rotr _ _ bytes

theorem within_decode (codec : ValueCodec) (v : BitVec 64) (bytes : ℕ) :
    Within bytes (codec.decode v bytes) := by
  unfold decode
  dsimp only
  split
  · exact within_and _ bytes
  · exact within_and _ bytes
  · exact within_and _ bytes
  · exact within_rotr _ _ bytes
  · exact within_rotl _ _ bytes

theorem xor_xor_mask (hwidth : IsWidth bytes) (hv : Within bytes v) (key : BitVec 64) :
    (((v ^^^ key) &&& maskFor bytes) ^^^ key) &&& maskFor bytes = v := by
  refine eq_of_within (within_and _ bytes) hv fun i hi ↦ ?_
  rw [getLsbD_and_maskFor hwidth hi, BitVec.getLsbD_xor, getLsbD_and_maskFor hwidth hi,
    BitVec.getLsbD_xor, Bool.xor_assoc, Bool.xor_self, Bool.xor_false]

theorem add_sub_mask (hwidth : IsWidth bytes) (hv : Within bytes v) (key : BitVec 64) :
    (((v + key) &&& maskFor bytes) - key) &&& maskFor bytes = v := by
  have hlt := (within_iff_lt hwidth).mp hv
  refine BitVec.eq_of_toNat_eq ?_
  rw [toNat_and_maskFor hwidth, BitVec.toNat_sub, toNat_and_maskFor hwidth, BitVec.toNat_add]
  have hkey := key.isLt
  rcases hwidth with rfl | rfl | rfl | rfl <;> omega

theorem sub_add_mask (hwidth : IsWidth bytes) (hv : Within bytes v) (key : BitVec 64) :
    (((v - key) &&& maskFor bytes) + key) &&& maskFor bytes = v := by
  have hlt := (within_iff_lt hwidth).mp hv
  refine BitVec.eq_of_toNat_eq ?_
  rw [toNat_and_maskFor hwidth, BitVec.toNat_add, toNat_and_maskFor hwidth, BitVec.toNat_sub]
  have hkey := key.isLt
  rcases hwidth with rfl | rfl | rfl | rfl <;> omega

theorem decode_encode (codec : ValueCodec) (hwidth : IsWidth bytes) (hv : Within bytes v) :
    codec.decode (codec.encode v bytes) bytes = v := by
  have hmask := (within_iff_and hwidth).mp hv
  have hstored := (within_iff_and hwidth).mp (within_encode codec v bytes)
  unfold decode
  dsimp only
  rw [hstored]
  unfold encode
  dsimp only
  rw [hmask]
  cases codec.op with
  | none => rfl
  | xor => exact xor_xor_mask hwidth hv codec.key
  | add => exact add_sub_mask hwidth hv codec.key
  | rol => exact rotr_rotl hwidth hv codec.count
  | ror => exact rotl_rotr hwidth hv codec.count

theorem encode_decode (codec : ValueCodec) (hwidth : IsWidth bytes) (hv : Within bytes v) :
    codec.encode (codec.decode v bytes) bytes = v := by
  have hmask := (within_iff_and hwidth).mp hv
  have hlogical := (within_iff_and hwidth).mp (within_decode codec v bytes)
  unfold encode
  dsimp only
  rw [hlogical]
  unfold decode
  dsimp only
  rw [hmask]
  cases codec.op with
  | none => rfl
  | xor => exact xor_xor_mask hwidth hv codec.key
  | add => exact sub_add_mask hwidth hv codec.key
  | rol => exact rotl_rotr hwidth hv codec.count
  | ror => exact rotr_rotl hwidth hv codec.count

/-! ### Sequences of codecs -/

/-- The codecs applied in turn. -/
def encodeAll (codecs : List ValueCodec) (logical : BitVec 64) (bytes : ℕ) : BitVec 64 :=
  codecs.foldl (fun v codec ↦ codec.encode v bytes) logical

/-- The codecs undone in the opposite order. -/
def decodeAll (codecs : List ValueCodec) (stored : BitVec 64) (bytes : ℕ) : BitVec 64 :=
  codecs.foldr (fun codec v ↦ codec.decode v bytes) stored

theorem decodeAll_encodeAll (codecs : List ValueCodec) (hwidth : IsWidth bytes)
    (hv : Within bytes v) : decodeAll codecs (encodeAll codecs v bytes) bytes = v := by
  induction codecs generalizing v with
  | nil => rfl
  | cons codec rest ih =>
    have hrest := ih (within_encode codec v bytes)
    unfold decodeAll encodeAll at hrest ⊢
    rw [List.foldr_cons, List.foldl_cons, hrest, decode_encode codec hwidth hv]

theorem within_decodeAll (codecs : List ValueCodec) (hv : Within bytes v) :
    Within bytes (decodeAll codecs v bytes) := by
  cases codecs with
  | nil => exact hv
  | cons codec rest => exact within_decode codec _ bytes

theorem within_encodeAll (codecs : List ValueCodec) (hv : Within bytes v) :
    Within bytes (encodeAll codecs v bytes) := by
  induction codecs generalizing v with
  | nil => exact hv
  | cons codec rest ih => exact ih (within_encode codec v bytes)

theorem encodeAll_decodeAll (codecs : List ValueCodec) (hwidth : IsWidth bytes)
    (hv : Within bytes v) : encodeAll codecs (decodeAll codecs v bytes) bytes = v := by
  induction codecs generalizing v with
  | nil => rfl
  | cons codec rest ih =>
    have hrest := ih hv
    have hwithin := within_decodeAll rest hv
    unfold decodeAll at hrest hwithin ⊢
    unfold encodeAll at hrest ⊢
    rw [List.foldr_cons, List.foldl_cons, encode_decode codec hwidth hwithin, hrest]

/-! ### Descriptions -/

/-- With the base left open, hexadecimal digits behind `0x` are read as such. -/
theorem stoull_hex {n : ℕ} (hn : n < sizeModulus) :
    stoull 0 ('0' :: 'x' :: hex n) = some (n, []) := by
  have hdigits : startsDigit 16 (hex n) = true := by
    have := startsDigit_toDigits (by decide : 1 < 16) le_rfl n []
    rwa [List.append_nil] at this
  have hread : takeDigits 16 0 (hex n) = (n, []) := by
    have := takeDigits_toDigits (by decide : 1 < 16) le_rfl n []
    rwa [List.append_nil] at this
  have hsign : takeSign (('0' :: 'x' :: hex n).dropWhile isSpace) = (false, '0' :: 'x' :: hex n) := rfl
  have hmark : numberPrefix 0 ('0' :: 'x' :: hex n) = (16, hex n) := by
    rw [numberPrefix, if_pos ⟨Or.inl rfl, Or.inl rfl, hdigits⟩]
  rw [stoull, readInteger, hsign]
  dsimp only
  rw [hmark]
  dsimp only
  rw [if_pos hdigits, hread]
  dsimp only
  rw [if_pos hn]
  rfl

/-- With the base left open, a number without leading zeros is read as decimal. -/
theorem stoull_decimal {n : ℕ} (hn : n < sizeModulus) :
    stoull 0 (decimal n) = some (n, []) := by
  by_cases hzero : n = 0
  · subst hzero
    decide
  have hsign : takeSign ((decimal n).dropWhile isSpace) = (false, decimal n) := by
    have := takeSign_toDigits (by decide : 1 < 10) (by decide) n []
    rwa [List.append_nil] at this
  have hdigits : startsDigit 10 (decimal n) = true := by
    have := startsDigit_toDigits (by decide : 1 < 10) (by decide) n []
    rwa [List.append_nil] at this
  have hread : takeDigits 10 0 (decimal n) = (n, []) := by
    have := takeDigits_toDigits (by decide : 1 < 10) (by decide) n []
    rwa [List.append_nil] at this
  have hmark : numberPrefix 0 (decimal n) = (10, decimal n) := by
    obtain ⟨c, others, heq, -, hfirst⟩ := head_toDigits (by decide : 1 < 10) (by decide) n
    have hc : c ≠ '0' := fun h ↦ hzero (hfirst h).1
    unfold numberPrefix
    split
    · next x tail htext =>
      rw [decimal, heq] at htext
      exact absurd (List.cons.inj htext).1 hc
    · rw [if_pos rfl, if_neg]
      intro htext
      rw [decimal, heq] at htext
      exact hc (List.cons.inj htext).1
  rw [stoull, readInteger, hsign]
  dsimp only
  rw [hmark]
  dsimp only
  rw [if_pos hdigits, hread]
  dsimp only
  rw [if_pos hn]
  rfl

/-- A text of numerals has no terminator in it. -/
theorem cString_of_numerals {text : Text} (h : ∀ c ∈ text, c ≠ Char.ofNat 0) :
    cString text = text := by
  unfold cString
  induction text with
  | nil => rfl
  | cons c rest ih =>
    have hc : decide (c ≠ Char.ofNat 0) = true := decide_eq_true (h c List.mem_cons_self)
    rw [List.takeWhile_cons, if_pos hc, ih fun d hd ↦ h d (List.mem_cons_of_mem c hd)]

theorem ne_zero_of_mem_toDigits {base n : ℕ} (hbase : 1 < base) (hmax : base ≤ 16) {c : Char}
    (hc : c ∈ Nat.toDigits base n) : c ≠ Char.ofNat 0 := by
  obtain ⟨d, hd, rfl⟩ := isNumeral_of_mem hbase hmax hc
  interval_cases d <;> decide

/-- What `parse` makes of a name, a colon and a number. -/
theorem parse_append {name arg : Text} (hname : ':' ∉ name) (harg : arg ≠ []) {key : ℕ}
    (hkey : stoull 0 (cString arg) = some (key, [])) :
    parse (name ++ ':' :: arg) =
      if name = "xor".toList then some ⟨.xor, BitVec.ofNat 64 key⟩
      else if name = "add".toList then some ⟨.add, BitVec.ofNat 64 key⟩
      else if name = "rol".toList then some ⟨.rol, BitVec.ofNat 64 key⟩
      else if name = "ror".toList then some ⟨.ror, BitVec.ofNat 64 key⟩
      else none := by
  have hall : ∀ c ∈ name, (decide (c ≠ ':')) = true := by
    intro c hc
    exact decide_eq_true fun h ↦ hname (h ▸ hc)
  have hdrop : (name ++ ':' :: arg).dropWhile (· ≠ ':') = ':' :: arg := by
    rw [List.dropWhile_append_of_pos hall]
    rfl
  have htake : (name ++ ':' :: arg).takeWhile (· ≠ ':') = name := by
    rw [List.takeWhile_append_of_pos hall]
    simp
  unfold parse
  rw [hdrop]
  dsimp only
  rw [htake, if_neg harg, hkey]

theorem key_lt (codec : ValueCodec) : codec.key.toNat < sizeModulus := codec.key.isLt

/-- An active codec is read back from its description. -/
theorem parse_describe (codec : ValueCodec) (hactive : codec.active = true) :
    parse codec.describe = some codec := by
  have hdecimal : stoull 0 (cString (decimal codec.key.toNat)) = some (codec.key.toNat, []) := by
    rw [cString_of_numerals, stoull_decimal codec.key_lt]
    exact fun c hc ↦ ne_zero_of_mem_toDigits (by decide : 1 < 10) (by decide) hc
  have hhex : stoull 0 (cString ('0' :: 'x' :: hex codec.key.toNat)) =
      some (codec.key.toNat, []) := by
    rw [cString_of_numerals, stoull_hex codec.key_lt]
    intro c hc
    rcases List.mem_cons.mp hc with rfl | hc
    · decide
    rcases List.mem_cons.mp hc with rfl | hc
    · decide
    · exact ne_zero_of_mem_toDigits (by decide : 1 < 16) le_rfl hc
  have hkey : BitVec.ofNat 64 codec.key.toNat = codec.key := by
    rw [BitVec.ofNat_toNat, BitVec.setWidth_eq]
  have hdigits : decimal codec.key.toNat ≠ [] := toDigits_ne_nil (by decide) (by decide) _
  obtain ⟨op, key⟩ := codec
  cases op with
  | none => exact absurd hactive Bool.false_ne_true
  | xor =>
    have := parse_append (by decide : ':' ∉ "xor".toList) (List.cons_ne_nil _ _) hhex
    rw [if_pos rfl, hkey] at this
    exact this
  | add =>
    have := parse_append (by decide : ':' ∉ "add".toList) hdigits hdecimal
    rw [if_neg (by decide), if_pos rfl, hkey] at this
    exact this
  | rol =>
    have := parse_append (by decide : ':' ∉ "rol".toList) hdigits hdecimal
    rw [if_neg (by decide), if_neg (by decide), if_pos rfl, hkey] at this
    exact this
  | ror =>
    have := parse_append (by decide : ':' ∉ "ror".toList) hdigits hdecimal
    rw [if_neg (by decide), if_neg (by decide), if_neg (by decide),
      if_pos rfl, hkey] at this
    exact this

end ValueCodec

/-! ### Scalars read and written -/

open ValueCodec

@[simp] theorem length_inOrder (bigEndian : Bool) (bytes : List UInt8) :
    (inOrder bigEndian bytes).length = bytes.length := by
  unfold inOrder
  split_ifs
  · exact List.length_reverse
  · rfl

theorem inOrder_inOrder (bigEndian : Bool) (bytes : List UInt8) :
    inOrder bigEndian (inOrder bigEndian bytes) = bytes := by
  by_cases h : (bigEndian && decide (1 < bytes.length)) = true
  · have hone : inOrder bigEndian bytes = bytes.reverse := by
      rw [inOrder, if_pos h]
    rw [hone, inOrder, List.length_reverse, if_pos h, List.reverse_reverse]
  · have hone : inOrder bigEndian bytes = bytes := by
      rw [inOrder, if_neg h]
    rw [hone, hone]

theorem isWidth_scalarWidth {type : ValueType} (h : scalarWidth type ≠ 0) :
    IsWidth (scalarWidth type) := by
  unfold IsWidth
  cases type <;> simp_all [scalarWidth]

theorem within_ofNat {bytes n : ℕ} (hwidth : IsWidth bytes) (hn : n < 2 ^ (bytes * 8)) :
    Within bytes (BitVec.ofNat 64 n) := by
  rw [within_iff_lt hwidth, BitVec.toNat_ofNat]
  exact (Nat.mod_le n _).trans_lt hn

/-- The bytes of a scalar as a number fit the width. -/
theorem leNat_inOrder_lt {bytes : ℕ} {stored : List UInt8} (hstored : stored.length = bytes)
    (bigEndian : Bool) : leNat (inOrder bigEndian stored) < 2 ^ (bytes * 8) := by
  have := leNat_lt (inOrder bigEndian stored)
  rwa [length_inOrder, hstored, show (256 : ℕ) = 2 ^ 8 by rfl, ← Nat.pow_mul, Nat.mul_comm] at this

theorem within_decodeScalarBits {type : ValueType} (hscalar : scalarWidth type ≠ 0)
    {stored : List UInt8} (hstored : stored.length = scalarWidth type) (bigEndian : Bool)
    (codec : ValueCodec) :
    Within (scalarWidth type) (decodeScalarBits type stored bigEndian codec) := by
  unfold decodeScalarBits
  dsimp only
  rw [if_neg hscalar, List.take_of_length_le hstored.le]
  split_ifs
  · exact within_decode codec _ _
  · exact within_ofNat (isWidth_scalarWidth hscalar) (leNat_inOrder_lt hstored bigEndian)

/-- Bytes of a scalar's width, decoded and encoded again, are the same bytes. -/
theorem encodeScalarBits_decodeScalarBits {type : ValueType} (hscalar : scalarWidth type ≠ 0)
    {stored : List UInt8} (hstored : stored.length = scalarWidth type) (bigEndian : Bool)
    (codec : ValueCodec) :
    encodeScalarBits type (decodeScalarBits type stored bigEndian codec) bigEndian codec =
      stored := by
  have hwidth := isWidth_scalarWidth hscalar
  have hle := IsWidth.le hwidth
  set raw := inOrder bigEndian stored with hraw
  have hlength : raw.length = scalarWidth type := by rw [hraw, length_inOrder, hstored]
  have hlt : leNat raw < 2 ^ (scalarWidth type * 8) := leNat_inOrder_lt hstored bigEndian
  have hwithin : Within (scalarWidth type) (BitVec.ofNat 64 (leNat raw)) := within_ofNat hwidth hlt
  have hnat : (BitVec.ofNat 64 (leNat raw)).toNat = leNat raw := by
    rw [BitVec.toNat_ofNat]
    exact Nat.mod_eq_of_lt (hlt.trans_le (Nat.pow_le_pow_right (by decide) (by omega)))
  have hback : inOrder bigEndian (toLE (scalarWidth type) (leNat raw)) = stored := by
    rw [← hlength, toLE_leNat, hraw, inOrder_inOrder]
  unfold encodeScalarBits decodeScalarBits
  dsimp only
  rw [if_neg hscalar, List.take_of_length_le hstored.le, ← hraw]
  split_ifs
  · rw [encode_decode codec hwidth hwithin, hnat, hback]
  · rw [hnat, hback]

/-- Bits of a scalar's width, encoded and decoded again, are the same bits. -/
theorem decodeScalarBits_encodeScalarBits {type : ValueType} (hscalar : scalarWidth type ≠ 0)
    {bits : BitVec 64} (hbits : Within (scalarWidth type) bits) (bigEndian : Bool)
    (codec : ValueCodec) :
    decodeScalarBits type (encodeScalarBits type bits bigEndian codec) bigEndian codec = bits := by
  have hwidth := isWidth_scalarWidth hscalar
  have hread : ∀ {raw : BitVec 64}, Within (scalarWidth type) raw →
      BitVec.ofNat 64 (leNat (inOrder bigEndian
        ((inOrder bigEndian (toLE (scalarWidth type) raw.toNat)).take (scalarWidth type)))) =
      raw := by
    intro raw hraw
    have hlt := (within_iff_lt hwidth).mp hraw
    have hlength : (inOrder bigEndian (toLE (scalarWidth type) raw.toNat)).length =
        scalarWidth type := by rw [length_inOrder, length_toLE]
    rw [List.take_of_length_le hlength.le, inOrder_inOrder, leNat_toLE,
      show (256 : ℕ) = 2 ^ 8 by rfl, ← Nat.pow_mul, Nat.mul_comm, Nat.mod_eq_of_lt hlt,
      BitVec.ofNat_toNat, BitVec.setWidth_eq]
  unfold encodeScalarBits decodeScalarBits
  dsimp only
  rw [if_neg hscalar]
  split_ifs
  · rw [hread (within_encode codec bits _), decode_encode codec hwidth hbits]
  · rw [hread hbits]

/-- Each direction of the codecs undoes the other, on bits of a width for any sequence of codecs and,
with the sequence in front, on the bytes of every scalar type in either byte order. An active codec
is read back from its description. -/
theorem scalar_codec_inverse :
    (∀ (codecs : List ValueCodec) (bytes : ℕ), IsWidth bytes → ∀ v, Within bytes v →
      decodeAll codecs (encodeAll codecs v bytes) bytes = v ∧
      encodeAll codecs (decodeAll codecs v bytes) bytes = v) ∧
    (∀ (type : ValueType) (bigEndian : Bool) (codecs : List ValueCodec) (codec : ValueCodec),
      scalarWidth type ≠ 0 →
      (∀ bits, Within (scalarWidth type) bits →
        decodeAll codecs (decodeScalarBits type
          (encodeScalarBits type (encodeAll codecs bits (scalarWidth type)) bigEndian codec)
          bigEndian codec) (scalarWidth type) = bits) ∧
      (∀ stored : List UInt8, stored.length = scalarWidth type →
        encodeScalarBits type (encodeAll codecs (decodeAll codecs
          (decodeScalarBits type stored bigEndian codec) (scalarWidth type)) (scalarWidth type))
          bigEndian codec = stored)) ∧
    ∀ codec : ValueCodec, codec.active = true → parse codec.describe = some codec := by
  refine ⟨fun codecs bytes hwidth v hv ↦ ?_, fun type bigEndian codecs codec hscalar ↦ ?_,
    parse_describe⟩
  · exact ⟨decodeAll_encodeAll codecs hwidth hv, encodeAll_decodeAll codecs hwidth hv⟩
  have hwidth := isWidth_scalarWidth hscalar
  refine ⟨fun bits hbits ↦ ?_, fun stored hstored ↦ ?_⟩
  · rw [decodeScalarBits_encodeScalarBits hscalar (within_encodeAll codecs hbits),
      decodeAll_encodeAll codecs hwidth hbits]
  · rw [encodeAll_decodeAll codecs hwidth (within_decodeScalarBits hscalar hstored bigEndian codec),
      encodeScalarBits_decodeScalarBits hscalar hstored]

theorem scalar_codec_inverse_int32 :
    encodeScalarBits .int32 (encodeAll [⟨.rol, 37⟩] (decodeAll [⟨.rol, 37⟩]
      (decodeScalarBits .int32 [1, 2, 3, 4] true ⟨.xor, 0xdeadbeef⟩) 4) 4) true
      ⟨.xor, 0xdeadbeef⟩ = [1, 2, 3, 4] :=
  (scalar_codec_inverse.2.1 .int32 true [⟨.rol, 37⟩] ⟨.xor, 0xdeadbeef⟩ (by decide)).2
    [1, 2, 3, 4] rfl

end Cecore
