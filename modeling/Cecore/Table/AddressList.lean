import Mathlib.Algebra.Group.Int.Defs
import Mathlib.Data.List.Destutter
import Mathlib.Data.List.DropRight
import Mathlib.Data.List.Intervals
import Mathlib.Data.List.Sort
import Mathlib.Order.MinMax
import Mathlib.Tactic.Common

/-!
# Rows of the address list

The pure functions of `core/address_list.hpp` on the rows of the cheat table. An outline is the list
of its rows' depths; the descendants of a row are the rows behind it up to the first that is not
deeper. Rows move as a block (`moveRangePermutation`), and a selection is put under a new header
(`groupSelection`). An `int` wraps around.
-/

set_option autoImplicit false
set_option relaxedAutoImplicit false

namespace Cecore.Table

/-- The rows nested under `row`, from the first to behind the last. -/
def descendantRange (indents : List ℤ) (row : ℕ) : ℕ × ℕ :=
  match indents[row]? with
  | none => (row + 1, row + 1)
  | some parent =>
    (row + 1, row + 1 + ((indents.drop (row + 1)).takeWhile fun d ↦ decide (parent < d)).length)

/-! ### Moving rows -/

/-- The old row for each new position when the block of `len` rows at `start` is inserted before the
row `dest`; nothing when `reserve` throws. -/
def moveRangePermutation (count start len dest : Int32) : Option (List ℕ) :=
  let stop := start + len
  let rows := List.range count.toInt.toNat
  if count ≤ 0 ∨ len ≤ 0 ∨ start < 0 ∨ stop > count then some rows
  else if count - len < 0 then none
  else
    let rest := rows.filter fun i : ℕ ↦ decide (i < start.toInt) || decide (stop.toInt ≤ i)
    let insertPos := (rest.takeWhile fun r : ℕ ↦ decide (r < dest.toInt)).length
    some (rest.take insertPos ++ List.Ico start.toInt.toNat stop.toInt.toNat ++
      rest.drop insertPos)

/-- A non-empty block inside the rows. -/
def IsBlock (count start len : ℤ) : Prop := 0 < len ∧ 0 ≤ start ∧ start + len ≤ count

/-- A place for a block: before some row or behind the last one, and not at the block itself. -/
def IsPlace (count start len dest : ℤ) : Prop :=
  0 ≤ dest ∧ dest ≤ count ∧ ¬(start ≤ dest ∧ dest ≤ start + len)

/-- The rows with the block moved in front of the row `dest`, and as they are where there is no
block or no place for it. -/
structure Moves (count start len dest : ℤ) (rows : List ℕ) : Prop where
  perm : rows.Perm (List.range count.toNat)
  moved : IsBlock count start len → IsPlace count start len dest → ∃ before after,
    rows = before ++ List.Ico start.toNat (start + len).toNat ++ after ∧
      before ++ after = (List.range count.toNat).filter
        (fun i ↦ decide (i ∉ List.Ico start.toNat (start + len).toNat)) ∧
      after.head? = if dest < count then some dest.toNat else none
  unmoved : ¬(IsBlock count start len ∧ IsPlace count start len dest) →
    rows = List.range count.toNat

/-- A place outside of the rows is taken for the front or the back, where the block must be; the end
of a block that no `int` can hold must not have more rows than there are. -/
def MovesRightly (count start len dest : ℤ) : Prop :=
  (IsBlock count start len → (dest < 0 → start = 0) ∧ (count < dest → start + len = count)) ∧
    (0 < count → 0 ≤ start → 0 < len → 2 ^ 31 ≤ start + len → len ≤ count)

section Rows

variable {n s e d : ℕ}

/-- The rows in front of the block, in it and behind it. -/
theorem range_split (hse : s ≤ e) (hen : e ≤ n) :
    List.range n = List.range s ++ List.Ico s e ++ List.Ico e n := by
  rw [← List.Ico.zero_bot n, ← List.Ico.zero_bot s,
    List.Ico.append_consecutive (Nat.zero_le s) hse,
    List.Ico.append_consecutive (Nat.zero_le e) hen]

theorem filter_notMem_block (hse : s ≤ e) (hen : e ≤ n) :
    (List.range n).filter (fun i ↦ decide (i ∉ List.Ico s e)) =
      List.range s ++ List.Ico e n := by
  rw [range_split hse hen, List.filter_append, List.filter_append]
  have hfront : (List.range s).filter (fun i ↦ decide (i ∉ List.Ico s e)) = List.range s := by
    refine List.filter_eq_self.mpr fun i hi ↦ ?_
    simp only [List.mem_range, List.Ico.mem, decide_eq_true_eq] at hi ⊢
    omega
  have hblock : (List.Ico s e).filter (fun i ↦ decide (i ∉ List.Ico s e)) = [] := by
    refine List.filter_eq_nil_iff.mpr fun i hi ↦ ?_
    simp [hi]
  have hback : (List.Ico e n).filter (fun i ↦ decide (i ∉ List.Ico s e)) = List.Ico e n := by
    refine List.filter_eq_self.mpr fun i hi ↦ ?_
    simp only [List.Ico.mem, decide_eq_true_eq] at hi ⊢
    omega
  rw [hfront, hblock, hback, List.append_nil]

/-- The rows below `d`, cut off a list of rows where they end. -/
theorem takeWhile_of_split {front back : List ℕ} (hfront : ∀ i ∈ front, i < d)
    (hback : ∀ i, back.head? = some i → d ≤ i) :
    (front ++ back).takeWhile (fun i ↦ decide (i < d)) = front := by
  rw [List.takeWhile_append_of_pos fun i hi ↦ decide_eq_true (hfront i hi)]
  cases back with
  | nil => rw [List.takeWhile_nil, List.append_nil]
  | cons i rest =>
    have hi : ¬i < d := not_lt.mpr (hback i rfl)
    rw [List.takeWhile_cons_of_neg (by simpa using hi), List.append_nil]

theorem head_Ico (h : s < e) : (List.Ico s e).head? = some s := by
  rw [List.Ico.eq_cons h]
  rfl

theorem le_of_head_Ico {i : ℕ} (h : (List.Ico s e).head? = some i) : i = s ∧ s < e := by
  by_cases hse : s < e
  · rw [head_Ico hse, Option.some.injEq] at h
    exact ⟨h.symm, hse⟩
  · rw [List.Ico.eq_nil_of_le (not_lt.mp hse)] at h
    cases h

/-- Where the rows without the block are cut. -/
theorem cut_rows (hse : s ≤ e) : ∃ front back,
    List.range s ++ List.Ico e n = front ++ back ∧
      (front ++ back).takeWhile (fun i ↦ decide (i < d)) = front ∧
      ((d ≤ s ∧ front = List.range d ∧ back = List.Ico d s ++ List.Ico e n) ∨
        (s < d ∧ d ≤ e ∧ front = List.range s ∧ back = List.Ico e n) ∨
        (e < d ∧ d ≤ n ∧ front = List.range s ++ List.Ico e d ∧ back = List.Ico d n) ∨
        (n < d ∧ front = List.range s ++ List.Ico e n ∧ back = [])) := by
  by_cases hds : d ≤ s
  · refine ⟨List.range d, List.Ico d s ++ List.Ico e n, ?_, ?_, Or.inl ⟨hds, rfl, rfl⟩⟩
    · rw [← List.append_assoc, ← List.Ico.zero_bot d, ← List.Ico.zero_bot s,
        List.Ico.append_consecutive (Nat.zero_le d) hds]
    · refine takeWhile_of_split (fun i hi ↦ List.mem_range.mp hi) fun i hi ↦ ?_
      rcases Nat.lt_or_ge d s with hlt | hge
      · rw [List.Ico.eq_cons hlt, List.cons_append, List.head?_cons, Option.some.injEq] at hi
        omega
      · rw [List.Ico.eq_nil_of_le hge, List.nil_append] at hi
        have hie := le_of_head_Ico hi
        omega
  by_cases hde : d ≤ e
  · refine ⟨List.range s, List.Ico e n, rfl, ?_, Or.inr (Or.inl ⟨by omega, hde, rfl, rfl⟩)⟩
    refine takeWhile_of_split (fun i hi ↦ ?_) fun i hi ↦ ?_
    · rw [List.mem_range] at hi
      omega
    · have hie := le_of_head_Ico hi
      omega
  by_cases hdn : d ≤ n
  · refine ⟨List.range s ++ List.Ico e d, List.Ico d n, ?_, ?_,
      Or.inr (Or.inr (Or.inl ⟨by omega, hdn, rfl, rfl⟩))⟩
    · rw [List.append_assoc, List.Ico.append_consecutive (by omega) hdn]
    · refine takeWhile_of_split (fun i hi ↦ ?_) fun i hi ↦ ?_
      · rw [List.mem_append, List.mem_range, List.Ico.mem] at hi
        omega
      · have hid := le_of_head_Ico hi
        omega
  · refine ⟨List.range s ++ List.Ico e n, [], (List.append_nil _).symm, ?_,
      Or.inr (Or.inr (Or.inr ⟨by omega, rfl, rfl⟩))⟩
    refine takeWhile_of_split (fun i hi ↦ ?_) fun i hi ↦ by cases hi
    rw [List.mem_append, List.mem_range, List.Ico.mem] at hi
    omega

end Rows

section Moves

variable {count start len dest : Int32}

theorem toInt_stop (hstop : start.toInt + len.toInt < 2 ^ 31) (hstart : 0 ≤ start.toInt)
    (hlen : 0 < len.toInt) : (start + len).toInt = start.toInt + len.toInt := by
  rw [Int32.toInt_add, Int.bmod_def]
  omega

/-- The end of the block does not fit into an `int`. -/
theorem toInt_stop_of_overflow (hstop : 2 ^ 31 ≤ start.toInt + len.toInt) :
    (start + len).toInt = start.toInt + len.toInt - 2 ^ 32 := by
  have hstart := start.toInt_lt
  have hlen := len.toInt_lt
  rw [Int32.toInt_add, Int.bmod_def]
  omega

theorem toInt_rest (hcount : 0 < count.toInt) (hlen : 0 < len.toInt) :
    (count - len).toInt = count.toInt - len.toInt := by
  have hcountLt := count.toInt_lt
  have hlenLt := len.toInt_lt
  rw [Int32.toInt_sub, Int.bmod_def]
  omega

/-- The guard in front, without wrapping. -/
theorem moveRangePermutation_of_invalid
    (h : ¬IsBlock count.toInt start.toInt len.toInt)
    (hstop : 0 < count.toInt → 0 ≤ start.toInt → 0 < len.toInt →
      start.toInt + len.toInt < 2 ^ 31) :
    moveRangePermutation count start len dest = some (List.range count.toInt.toNat) := by
  unfold moveRangePermutation
  dsimp only
  rw [if_pos]
  simp only [gt_iff_lt, Int32.le_iff_toInt_le, Int32.lt_iff_toInt_lt, Int32.toInt_zero]
  by_contra hguard
  simp only [not_or, not_le, not_lt] at hguard
  obtain ⟨hcount, hlen, hstart, hend⟩ := hguard
  rw [toInt_stop (hstop hcount hstart hlen) hstart hlen] at hend
  exact h ⟨hlen, hstart, hend⟩

/-- An end beyond the range of `int` gets through the guard as a negative one. -/
theorem moveRangePermutation_of_overflow (hcount : 0 < count.toInt) (hstart : 0 ≤ start.toInt)
    (hlen : 0 < len.toInt) (hstop : 2 ^ 31 ≤ start.toInt + len.toInt) :
    moveRangePermutation count start len dest =
      if len.toInt ≤ count.toInt then some (List.range count.toInt.toNat) else none := by
  have hwrapped := toInt_stop_of_overflow hstop
  have hstartLt := start.toInt_lt
  have hlenLt := len.toInt_lt
  have hnegative : (start + len).toInt < 0 := by omega
  unfold moveRangePermutation
  dsimp only
  rw [if_neg]
  · by_cases hle : len.toInt ≤ count.toInt
    · rw [if_pos hle, if_neg]
      · have hrest : (List.range count.toInt.toNat).filter (fun i : ℕ ↦
            decide ((i : ℤ) < start.toInt) || decide ((start + len).toInt ≤ (i : ℤ))) =
              List.range count.toInt.toNat := by
          refine List.filter_eq_self.mpr fun i _ ↦ ?_
          rw [Bool.or_eq_true, decide_eq_true_eq, decide_eq_true_eq]
          omega
        have hblock : List.Ico start.toInt.toNat (start + len).toInt.toNat = [] :=
          List.Ico.eq_nil_of_le (by omega)
        rw [hrest, hblock, List.append_nil, List.take_append_drop]
      · rw [Int32.lt_iff_toInt_lt, toInt_rest hcount hlen, Int32.toInt_zero]
        omega
    · rw [if_neg hle, if_pos]
      rw [Int32.lt_iff_toInt_lt, toInt_rest hcount hlen, Int32.toInt_zero]
      omega
  · simp only [gt_iff_lt, Int32.le_iff_toInt_le, Int32.lt_iff_toInt_lt, Int32.toInt_zero]
    omega

/-- A block is taken out and put in front of the first row that is not below `dest`. -/
theorem moveRangePermutation_of_block (h : IsBlock count.toInt start.toInt len.toInt) :
    ∃ front back, moveRangePermutation count start len dest = some (front ++
        List.Ico start.toInt.toNat (start.toInt + len.toInt).toNat ++ back) ∧
      List.range start.toInt.toNat ++
        List.Ico (start.toInt + len.toInt).toNat count.toInt.toNat = front ++ back ∧
      (dest.toInt.toNat ≤ start.toInt.toNat ∧ front = List.range dest.toInt.toNat ∧
          back = List.Ico dest.toInt.toNat start.toInt.toNat ++
            List.Ico (start.toInt + len.toInt).toNat count.toInt.toNat ∨
        start.toInt.toNat < dest.toInt.toNat ∧
          dest.toInt.toNat ≤ (start.toInt + len.toInt).toNat ∧
          front = List.range start.toInt.toNat ∧
          back = List.Ico (start.toInt + len.toInt).toNat count.toInt.toNat ∨
        (start.toInt + len.toInt).toNat < dest.toInt.toNat ∧
          dest.toInt.toNat ≤ count.toInt.toNat ∧
          front = List.range start.toInt.toNat ++
            List.Ico (start.toInt + len.toInt).toNat dest.toInt.toNat ∧
          back = List.Ico dest.toInt.toNat count.toInt.toNat ∨
        count.toInt.toNat < dest.toInt.toNat ∧
          front = List.range start.toInt.toNat ++
            List.Ico (start.toInt + len.toInt).toNat count.toInt.toNat ∧ back = []) := by
  obtain ⟨hlen, hstart, hend⟩ := h
  have hcountLt := count.toInt_lt
  have hstop := @toInt_stop start len (by omega) hstart hlen
  obtain ⟨front, back, hsplit, hcut, hcases⟩ := cut_rows (n := count.toInt.toNat)
    (s := start.toInt.toNat) (e := (start.toInt + len.toInt).toNat) (d := dest.toInt.toNat)
    (by omega)
  refine ⟨front, back, ?_, hsplit, hcases⟩
  unfold moveRangePermutation
  dsimp only
  rw [if_neg, if_neg]
  · have hrest : (List.range count.toInt.toNat).filter (fun i : ℕ ↦
        decide ((i : ℤ) < start.toInt) || decide ((start + len).toInt ≤ (i : ℤ))) =
          front ++ back := by
      rw [← hsplit, ← filter_notMem_block (n := count.toInt.toNat) (by omega) (by omega)]
      refine List.filter_congr fun i _ ↦ ?_
      rw [Bool.eq_iff_iff, Bool.or_eq_true, decide_eq_true_eq, decide_eq_true_eq,
        decide_eq_true_eq, List.Ico.mem, hstop]
      omega
    have hbelow : (fun r : ℕ ↦ decide ((r : ℤ) < dest.toInt)) =
        fun r : ℕ ↦ decide (r < dest.toInt.toNat) := by
      funext r
      rw [decide_eq_decide]
      omega
    rw [hrest, hbelow, hcut, List.take_left, List.drop_left, hstop]
  · rw [Int32.lt_iff_toInt_lt, toInt_rest (by omega) hlen, Int32.toInt_zero]
    omega
  · simp only [gt_iff_lt, Int32.le_iff_toInt_le, Int32.lt_iff_toInt_lt, Int32.toInt_zero, hstop]
    omega

/-- The block stays where it is when the place is at it. -/
theorem range_of_middle {n s e : ℕ} (hse : s ≤ e) (hen : e ≤ n) {front back : List ℕ}
    (hfront : front = List.range s) (hback : back = List.Ico e n) :
    front ++ List.Ico s e ++ back = List.range n := by
  rw [hfront, hback, ← range_split hse hen]

/-- Blocks in front of and behind the others are where they were only if they were there. -/
theorem eq_zero_of_front {n s e : ℕ} (hse : s < e) (hen : e ≤ n)
    (h : List.Ico s e ++ (List.Ico 0 s ++ List.Ico e n) = List.range n) : s = 0 := by
  have hhead : (List.range n).head? = some 0 := by
    rw [← List.Ico.zero_bot, head_Ico (by omega)]
  rw [← h, List.Ico.eq_cons hse, List.cons_append, List.head?_cons, Option.some.injEq] at hhead
  exact hhead

theorem eq_of_back {n s e : ℕ} (hse : s < e) (hen : e ≤ n)
    (h : List.range s ++ List.Ico e n ++ List.Ico s e = List.range n) : e = n := by
  by_contra hne
  have hlt : e < n := by omega
  rw [range_split hse.le hen, List.append_assoc, List.append_assoc] at h
  have hheads := congrArg List.head? (List.append_cancel_left h)
  rw [List.Ico.eq_cons hlt, List.Ico.eq_cons hse, List.cons_append, List.cons_append,
    List.head?_cons, List.head?_cons, Option.some.injEq] at hheads
  omega

theorem moves_of_block (h : IsBlock count.toInt start.toInt len.toInt) {front back : List ℕ}
    (hsplit : List.range start.toInt.toNat ++
      List.Ico (start.toInt + len.toInt).toNat count.toInt.toNat = front ++ back)
    (hhead : IsPlace count.toInt start.toInt len.toInt dest.toInt →
      back.head? = if dest.toInt < count.toInt then some dest.toInt.toNat else none)
    (hunmoved : ¬IsPlace count.toInt start.toInt len.toInt dest.toInt →
      front ++ List.Ico start.toInt.toNat (start.toInt + len.toInt).toNat ++ back =
        List.range count.toInt.toNat) :
    Moves count.toInt start.toInt len.toInt dest.toInt
      (front ++ List.Ico start.toInt.toNat (start.toInt + len.toInt).toNat ++ back) := by
  obtain ⟨hlen, hstart, hend⟩ := h
  have hse : start.toInt.toNat ≤ (start.toInt + len.toInt).toNat := by omega
  have hen : (start.toInt + len.toInt).toNat ≤ count.toInt.toNat := by omega
  refine ⟨?_, fun _ hplace ↦ ⟨front, back, rfl, ?_, hhead hplace⟩, fun hnot ↦ hunmoved fun hplace ↦
    hnot ⟨⟨hlen, hstart, hend⟩, hplace⟩⟩
  · rw [range_split hse hen]
    have hblockFirst : (front ++ List.Ico start.toInt.toNat (start.toInt + len.toInt).toNat ++
        back).Perm (List.Ico start.toInt.toNat (start.toInt + len.toInt).toNat ++
          (front ++ back)) := by
      rw [← List.append_assoc]
      exact List.perm_append_comm.append_right back
    refine hblockFirst.trans ?_
    rw [← hsplit, ← List.append_assoc]
    exact List.perm_append_comm.append_right _
  · rw [filter_notMem_block hse hen, hsplit]

end Moves

/-- The rows are moved as they should be exactly if a place outside of the rows is where the block
is anyway, and the end of the block is an `int`, or no block as long as that has room in the rows. -/
theorem moveRangePermutation_moves_iff (count start len dest : Int32) :
    (∃ rows, moveRangePermutation count start len dest = some rows ∧
        Moves count.toInt start.toInt len.toInt dest.toInt rows) ↔
      MovesRightly count.toInt start.toInt len.toInt dest.toInt := by
  have hcountLt := count.toInt_lt
  by_cases hblock : IsBlock count.toInt start.toInt len.toInt
  · obtain ⟨front, back, heq, hsplit, hcases⟩ := @moveRangePermutation_of_block count start len dest
      hblock
    have hbounds := hblock
    obtain ⟨hlen, hstart, hend⟩ := hbounds
    rw [heq]
    constructor
    · rintro ⟨rows, hrows, hmoves⟩
      obtain rfl := Option.some.inj hrows
      refine ⟨fun _ ↦ ⟨fun hneg ↦ ?_, fun hbeyond ↦ ?_⟩, fun _ _ _ hstop ↦ by omega⟩
      · have hsame := hmoves.unmoved fun hplace ↦ absurd hplace.2.1 (by omega)
        rcases hcases with ⟨-, hfront, hback⟩ | ⟨hd, -⟩ | ⟨hd, -⟩ | ⟨hd, -⟩ <;> try omega
        rw [hfront, hback, show dest.toInt.toNat = 0 by omega, List.range_zero,
          List.nil_append] at hsame
        have hzero := eq_zero_of_front (by omega) (by omega) hsame
        omega
      · have hsame := hmoves.unmoved fun hplace ↦ absurd hplace.2.2.1 (by omega)
        rcases hcases with ⟨hd, -⟩ | ⟨-, hd, -⟩ | ⟨-, hd, -⟩ | ⟨-, hfront, hback⟩ <;> try omega
        rw [hfront, hback, List.append_nil] at hsame
        have hn := eq_of_back (by omega) (by omega) hsame
        omega
    · rintro ⟨hedges, -⟩
      obtain ⟨hneg, hbeyond⟩ := hedges hblock
      refine ⟨_, rfl, moves_of_block hblock hsplit (fun hplace ↦ ?_) fun hnot ↦ ?_⟩
      · obtain ⟨hdest, hle, hout⟩ := hplace
        rcases hcases with ⟨hd, -, hback⟩ | ⟨hd, hd', -⟩ | ⟨-, hd, -, hback⟩ | ⟨hd, -⟩
        · rw [hback, List.Ico.eq_cons (by omega), List.cons_append, List.head?_cons,
            if_pos (by omega)]
        · omega
        · rw [hback]
          by_cases hlast : dest.toInt < count.toInt
          · rw [if_pos hlast, head_Ico (by omega)]
          · rw [if_neg hlast, List.Ico.eq_nil_of_le (by omega)]
            rfl
        · omega
      · have hcase : dest.toInt < 0 ∨ count.toInt < dest.toInt ∨
            start.toInt ≤ dest.toInt ∧ dest.toInt ≤ start.toInt + len.toInt := by
          by_contra hnone
          exact hnot ⟨by omega, by omega, fun hin ↦ hnone (Or.inr (Or.inr hin))⟩
        refine range_of_middle (by omega) (by omega) ?_ ?_
        · rcases hcases with ⟨hd, hfront, -⟩ | ⟨-, -, hfront, -⟩ | ⟨hd, hd', -⟩ | ⟨hd, hfront, -⟩
          · rw [hfront, show dest.toInt.toNat = start.toInt.toNat by omega]
          · exact hfront
          · omega
          · rw [hfront, List.Ico.eq_nil_of_le (by omega), List.append_nil]
        · rcases hcases with ⟨hd, -, hback⟩ | ⟨-, -, -, hback⟩ | ⟨hd, hd', -⟩ | ⟨hd, -, hback⟩
          · rw [hback, List.Ico.eq_nil_of_le (by omega), List.nil_append]
          · exact hback
          · omega
          · rw [hback, List.Ico.eq_nil_of_le (by omega)]
  · by_cases hover : 0 < count.toInt ∧ 0 ≤ start.toInt ∧ 0 < len.toInt ∧
        2 ^ 31 ≤ start.toInt + len.toInt
    · obtain ⟨hcount, hstart, hlen, hstop⟩ := hover
      rw [moveRangePermutation_of_overflow hcount hstart hlen hstop]
      by_cases hle : len.toInt ≤ count.toInt
      · rw [if_pos hle]
        refine iff_of_true ⟨_, rfl, List.Perm.refl _, fun h ↦ absurd h hblock, fun _ ↦ rfl⟩
          ⟨fun h ↦ absurd h hblock, fun _ _ _ _ ↦ hle⟩
      · rw [if_neg hle]
        exact iff_of_false (fun ⟨_, hrows, _⟩ ↦ by cases hrows) fun h ↦
          hle (h.2 hcount hstart hlen hstop)
    · rw [moveRangePermutation_of_invalid hblock fun hcount hstart hlen ↦
        not_le.mp fun hstop ↦ hover ⟨hcount, hstart, hlen, hstop⟩]
      refine iff_of_true ⟨_, rfl, List.Perm.refl _, fun h ↦ absurd h hblock, fun _ ↦ rfl⟩
        ⟨fun h ↦ absurd h hblock, fun hcount hstart hlen hstop ↦
          absurd ⟨hcount, hstart, hlen, hstop⟩ hover⟩

/-- A place in front of all rows: the block is moved to the front. -/
theorem negative_place_moves :
    ¬∃ rows, moveRangePermutation 5 1 1 (-1) = some rows ∧ Moves 5 1 1 (-1) rows := by
  rintro ⟨rows, hrows, hmoves⟩
  have hout : moveRangePermutation 5 1 1 (-1) = some [1, 0, 2, 3, 4] := by decide
  rw [hout, Option.some.injEq] at hrows
  have hsame := hmoves.unmoved fun hplace ↦ absurd hplace.2.1 (by decide)
  rw [← hrows] at hsame
  revert hsame
  decide

/-! ### Grouping rows -/

/-- `std::sort`, `std::unique` and the indices at the end that are no rows taken off. -/
def selectedRows (n : ℕ) (selected : List ℕ) : List ℕ :=
  ((selected.insertionSort (· ≤ ·)).destutter (· ≠ ·)).rdropWhile fun s ↦ decide (n ≤ s)

/-- `order` has the old row at each new position, or -1 for the header. -/
structure GroupSelectionPlan where
  order : List ℤ := []
  indent : List ℤ := []
  ok : Bool := false
  deriving DecidableEq, Repr

/-- The depth of a row. -/
def depthAt (indents : List ℤ) (row : ℕ) : ℤ := indents.getD row 0

def groupSelection (indents : List ℤ) (selected : List ℕ) : GroupSelectionPlan :=
  let selected := selectedRows indents.length selected
  match selected with
  | [] => {}
  | insertAt :: _ =>
    let minSel := selected.foldl (fun m s ↦ min m (depthAt indents s)) (depthAt indents insertAt)
    let rows : List (ℤ × ℤ) := (List.range indents.length).flatMap fun i ↦
      (if i = insertAt then
        (-1, minSel) :: selected.map fun s : ℕ ↦ ((s : ℤ), depthAt indents s + 1)
      else []) ++ if i ∈ selected then [] else [((i : ℤ), depthAt indents i)]
    ⟨rows.map Prod.fst, rows.map Prod.snd, true⟩

example : groupSelection [0, 0, 0, 0, 0] [2, 0, 2, 9] =
    ⟨[-1, 0, 2, 1, 3, 4], [0, 1, 1, 0, 0, 0], true⟩ := by decide

/-- A position in a range of positions. -/
def InRange (range : ℕ × ℕ) (i : ℕ) : Prop := range.1 ≤ i ∧ i < range.2

/-- The plan puts the selected rows, and no others, under one new header, keeps the nesting among
them, and keeps the order of the selected rows and of the others. -/
structure Groups (indents : List ℤ) (selected : List ℕ) (plan : GroupSelectionPlan) : Prop where
  perm : plan.order.Perm (-1 :: (List.range indents.length).map fun i : ℕ ↦ (i : ℤ))
  members : ∀ header, plan.order[header]? = some (-1) → ∀ (i row : ℕ),
    plan.order[i]? = some (row : ℤ) →
      (InRange (descendantRange plan.indent header) i ↔ row ∈ selected)
  nesting : ∀ i j a b : ℕ, a ∈ selected → b ∈ selected → plan.order[i]? = some (a : ℤ) →
    plan.order[j]? = some (b : ℤ) →
      (InRange (descendantRange plan.indent i) j ↔ InRange (descendantRange indents a) b)
  selectedInOrder : (((List.range indents.length).filter (· ∈ selected)).map
    fun i : ℕ ↦ (i : ℤ)).Sublist plan.order
  othersInOrder : (((List.range indents.length).filter (· ∉ selected)).map
    fun i : ℕ ↦ (i : ℤ)).Sublist plan.order

/-- The first row left out behind a selected one is not deeper than any selected row, and no row
left out between selected rows takes the second from under the first. -/
structure Groupable (indents : List ℤ) (selected : List ℕ) : Prop where
  behind : ∀ u < indents.length, u ∉ selected → (∃ s ∈ selected, s < u) →
    (∀ v < u, v ∉ selected → ∀ s ∈ selected, s < indents.length → v < s) →
      ∀ s ∈ selected, s < indents.length → depthAt indents u ≤ depthAt indents s
  between : ∀ a ∈ selected, ∀ b ∈ selected, a < b → b < indents.length →
    (∀ c ∈ selected, a < c → c ≤ b → depthAt indents a < depthAt indents c) →
      ∀ u, a < u → u ≤ b → depthAt indents a < depthAt indents u

/-! ### The rows that were selected -/

theorem mem_destutter'_ne {l : List ℕ} {a x : ℕ} (hx : x ∈ a :: l) :
    x ∈ l.destutter' (· ≠ ·) a := by
  induction l generalizing a with
  | nil => exact hx
  | cons b l ih =>
    by_cases hab : a ≠ b
    · rw [List.destutter'_cons_pos _ hab]
      rcases List.mem_cons.mp hx with rfl | hrest
      · exact List.mem_cons_self
      · exact List.mem_cons_of_mem _ (ih hrest)
    · rw [List.destutter'_cons_neg _ hab]
      rw [not_not] at hab
      rw [← hab, List.mem_cons, List.mem_cons] at hx
      exact ih (List.mem_cons.mpr (hx.elim Or.inl id))

theorem mem_destutter_ne {l : List ℕ} {x : ℕ} :
    x ∈ l.destutter (· ≠ ·) ↔ x ∈ l := by
  refine ⟨fun hx ↦ (List.destutter_sublist _ l).subset hx, fun hx ↦ ?_⟩
  cases l with
  | nil => cases hx
  | cons a l => exact mem_destutter'_ne hx

/-- A sorted list without its repetitions is strictly sorted. -/
theorem pairwise_destutter_ne {l : List ℕ} (h : l.Pairwise (· ≤ ·)) :
    (l.destutter (· ≠ ·)).Pairwise (· < ·) := by
  have hle := h.sublist (List.destutter_sublist (· ≠ ·) l)
  have hchain := List.isChain_destutter (· ≠ ·) l
  have hboth : (l.destutter (· ≠ ·)).IsChain (· < ·) := by
    rw [List.isChain_iff_getElem] at hchain ⊢
    intro i hi
    exact lt_of_le_of_ne (List.pairwise_iff_getElem.mp hle i (i + 1) _ hi (by omega)) (hchain i hi)
  exact List.isChain_iff_pairwise.mp hboth

/-- The rows off the end of a strictly sorted list. -/
theorem mem_rdropWhile {l : List ℕ} (h : l.Pairwise (· < ·)) {n x : ℕ} :
    x ∈ l.rdropWhile (fun s ↦ decide (n ≤ s)) ↔ x ∈ l ∧ x < n := by
  induction l using List.reverseRecOn with
  | nil => simp
  | append_singleton l a ih =>
    rw [List.pairwise_append] at h
    by_cases ha : n ≤ a
    · rw [List.rdropWhile_concat_pos _ _ _ (by simpa using ha), ih h.1]
      constructor
      · exact fun hx ↦ ⟨List.mem_append_left _ hx.1, hx.2⟩
      · rintro ⟨hx, hlt⟩
        rcases List.mem_append.mp hx with hold | hlast
        · exact ⟨hold, hlt⟩
        · rw [List.mem_singleton.mp hlast] at hlt
          omega
    · rw [List.rdropWhile_concat_neg _ _ _ (by simpa using ha)]
      refine ⟨fun hx ↦ ⟨hx, ?_⟩, And.left⟩
      rcases List.mem_append.mp hx with hold | hlast
      · have hlt := h.2.2 x hold a List.mem_cons_self
        omega
      · rw [List.mem_singleton.mp hlast]
        omega

/-- The rows that were selected, in order. -/
theorem selectedRows_eq (n : ℕ) (selected : List ℕ) :
    selectedRows n selected = (List.range n).filter (· ∈ selected) := by
  have hsorted := pairwise_destutter_ne (List.pairwise_insertionSort (· ≤ ·) selected)
  refine List.Pairwise.eq_of_mem_iff (r := (· < ·))
    (hsorted.sublist (List.rdropWhile_prefix _ _).sublist)
    (List.pairwise_lt_range.filter _) fun x ↦ ?_
  rw [selectedRows, mem_rdropWhile hsorted, mem_destutter_ne, List.mem_insertionSort,
    List.mem_filter, List.mem_range, decide_eq_true_eq]
  exact and_comm

/-! ### The plan -/

/-- The depth of the header: the least one of the selected rows. -/
def leastDepth (indents : List ℤ) (first : ℕ) (more : List ℕ) : ℤ :=
  (first :: more).foldl (fun m s ↦ min m (depthAt indents s)) (depthAt indents first)

section Plan

variable {indents : List ℤ} {selected more : List ℕ} {first : ℕ}

theorem leastDepth_lt_iff {d : ℤ} :
    leastDepth indents first more < d ↔ ∃ s ∈ first :: more, depthAt indents s < d := by
  have hfold : ∀ (l : List ℕ) (m : ℤ), l.foldl (fun m s ↦ min m (depthAt indents s)) m < d ↔
      m < d ∨ ∃ s ∈ l, depthAt indents s < d := by
    intro l
    induction l with
    | nil => simp
    | cons a l ih =>
      intro m
      rw [List.foldl_cons, ih, min_lt_iff, List.exists_mem_cons_iff, or_assoc]
  rw [leastDepth, hfold]
  constructor
  · rintro (hfirst | hex)
    · exact ⟨first, List.mem_cons_self, hfirst⟩
    · exact hex
  · exact Or.inr

/-- What is known of the first selected row. -/
theorem first_selected (h : (List.range indents.length).filter (· ∈ selected) = first :: more) :
    first < indents.length ∧ first ∈ selected ∧ (∀ i < first, i ∉ selected) ∧
      ∀ i, i ∈ first :: more ↔ i < indents.length ∧ i ∈ selected := by
  have hmem : ∀ i, i ∈ first :: more ↔ i < indents.length ∧ i ∈ selected := by
    intro i
    rw [← h, List.mem_filter, List.mem_range, decide_eq_true_eq]
  obtain ⟨hlt, hin⟩ := (hmem first).mp List.mem_cons_self
  refine ⟨hlt, hin, fun i hi hsel ↦ ?_, hmem⟩
  have hsorted : (first :: more).Pairwise (· < ·) := by
    rw [← h]
    exact List.pairwise_lt_range.filter _
  rcases List.mem_cons.mp ((hmem i).mpr ⟨by omega, hsel⟩) with rfl | hmore
  · omega
  · have hgt := (List.pairwise_cons.mp hsorted).1 i hmore
    omega

/-- The unselected rows behind the first selected one. -/
def rowsLeft (indents : List ℤ) (selected : List ℕ) (first : ℕ) : List ℕ :=
  (List.Ico (first + 1) indents.length).filter (· ∉ selected)

theorem flatMap_left {α : Type} (left : ℕ → Bool) (f : ℕ → α) (rows : List ℕ) :
    rows.flatMap (fun i ↦ if left i then [f i] else []) = (rows.filter left).map f := by
  induction rows with
  | nil => rfl
  | cons i rows ih =>
    rw [List.flatMap_cons, ih, List.filter_cons]
    cases left i <;> rfl

theorem groupSelection_eq
    (h : (List.range indents.length).filter (· ∈ selected) = first :: more) :
    groupSelection indents selected =
      ⟨(List.range first).map (fun i : ℕ ↦ (i : ℤ)) ++ -1 :: ((first :: more).map
          (fun i : ℕ ↦ (i : ℤ)) ++ (rowsLeft indents selected first).map fun i : ℕ ↦ (i : ℤ)),
        (List.range first).map (depthAt indents) ++ leastDepth indents first more ::
          ((first :: more).map (fun s ↦ depthAt indents s + 1) ++
            (rowsLeft indents selected first).map (depthAt indents)), true⟩ := by
  obtain ⟨hlt, hin, hbefore, hmem⟩ := first_selected h
  have hrows : (List.range indents.length).flatMap (fun i ↦
      (if i = first then
        ((-1 : ℤ), leastDepth indents first more) :: (first :: more).map fun s : ℕ ↦
          ((s : ℤ), depthAt indents s + 1)
      else []) ++ if i ∈ first :: more then [] else [((i : ℤ), depthAt indents i)]) =
      (List.range first).map (fun i : ℕ ↦ ((i : ℤ), depthAt indents i)) ++
        ((-1 : ℤ), leastDepth indents first more) :: ((first :: more).map
          (fun s : ℕ ↦ ((s : ℤ), depthAt indents s + 1)) ++
          (rowsLeft indents selected first).map fun i : ℕ ↦ ((i : ℤ), depthAt indents i)) := by
    have hsplit : List.range indents.length =
        List.range first ++ first :: List.Ico (first + 1) indents.length := by
      rw [← List.Ico.eq_cons hlt, ← List.Ico.zero_bot, ← List.Ico.zero_bot,
        List.Ico.append_consecutive (Nat.zero_le first) hlt.le]
    have hloop : ∀ rows : List ℕ, (∀ i ∈ rows, i ≠ first ∧ i < indents.length) →
        rows.flatMap (fun i ↦ (if i = first then
          ((-1 : ℤ), leastDepth indents first more) :: (first :: more).map fun s : ℕ ↦
            ((s : ℤ), depthAt indents s + 1)
        else []) ++ if i ∈ first :: more then [] else [((i : ℤ), depthAt indents i)]) =
        (rows.filter (· ∉ selected)).map fun i : ℕ ↦ ((i : ℤ), depthAt indents i) := by
      intro rows hall
      rw [← flatMap_left]
      refine List.flatMap_congr fun i hi ↦ ?_
      obtain ⟨hne, hi⟩ := hall i hi
      rw [if_neg hne, List.nil_append]
      by_cases hsel : i ∈ selected
      · rw [if_pos ((hmem i).mpr ⟨hi, hsel⟩), if_neg (by simpa using hsel)]
      · rw [if_neg fun hboth ↦ hsel ((hmem i).mp hboth).2, if_pos (by simpa using hsel)]
    have hpre : (List.range first).filter (· ∉ selected) = List.range first :=
      List.filter_eq_self.mpr fun i hi ↦ decide_eq_true (hbefore i (List.mem_range.mp hi))
    rw [hsplit, List.flatMap_append, List.flatMap_cons, if_pos rfl, if_pos List.mem_cons_self,
      List.append_nil, hloop _ fun i hi ↦ ?_, hloop _ fun i hi ↦ ?_, hpre, rowsLeft]
    · rfl
    · rw [List.Ico.mem] at hi
      omega
    · rw [List.mem_range] at hi
      omega
  unfold groupSelection
  dsimp only
  rw [selectedRows_eq, h]
  dsimp only
  rw [← leastDepth, hrows]
  simp only [List.map_append, List.map_cons, List.map_map, Function.comp_def]

/-- The descendants of a row: no row from it to them is as shallow as it is. -/
theorem inRange_descendantRange {indents : List ℤ} {row i : ℕ} {parent : ℤ}
    (hrow : indents[row]? = some parent) :
    InRange (descendantRange indents row) i ↔
      row < i ∧ ∀ k, row < k → k ≤ i → ∃ d, indents[k]? = some d ∧ parent < d := by
  have hcount : ∀ (l : List ℤ) (j : ℕ), j < (l.takeWhile fun d ↦ decide (parent < d)).length ↔
      ∀ k ≤ j, ∃ d, l[k]? = some d ∧ parent < d := by
    intro l
    induction l with
    | nil =>
      intro j
      refine iff_of_false (Nat.not_lt_zero j) fun hall ↦ ?_
      obtain ⟨d, hd, -⟩ := hall 0 (Nat.zero_le j)
      cases hd
    | cons d l ih =>
      intro j
      by_cases hd : parent < d
      · rw [List.takeWhile_cons, if_pos (decide_eq_true hd), List.length_cons]
        cases j with
        | zero =>
          refine iff_of_true (Nat.succ_pos _) fun k hk ↦ ⟨d, ?_, hd⟩
          rw [Nat.le_zero.mp hk, List.getElem?_cons_zero]
        | succ j =>
          rw [Nat.succ_lt_succ_iff, ih]
          constructor
          · intro hall k hk
            cases k with
            | zero => exact ⟨d, List.getElem?_cons_zero, hd⟩
            | succ k =>
              rw [List.getElem?_cons_succ]
              exact hall k (Nat.succ_le_succ_iff.mp hk)
          · intro hall k hk
            have hnext := hall (k + 1) (Nat.succ_le_succ hk)
            rwa [List.getElem?_cons_succ] at hnext
      · rw [List.takeWhile_cons, if_neg (by simpa using hd)]
        refine iff_of_false (Nat.not_lt_zero j) fun hall ↦ ?_
        obtain ⟨d', hd', hlt⟩ := hall 0 (Nat.zero_le j)
        rw [List.getElem?_cons_zero, Option.some.injEq] at hd'
        exact hd (hd' ▸ hlt)
  unfold descendantRange InRange
  rw [hrow]
  dsimp only
  by_cases hi : row < i
  · have hoffset := hcount (indents.drop (row + 1)) (i - (row + 1))
    constructor
    · rintro ⟨-, hend⟩
      refine ⟨hi, fun k hk hki ↦ ?_⟩
      have hfound := hoffset.mp (by omega) (k - (row + 1)) (by omega)
      rwa [List.getElem?_drop, show row + 1 + (k - (row + 1)) = k by omega] at hfound
    · rintro ⟨-, hall⟩
      refine ⟨hi, ?_⟩
      have hin := hoffset.mpr fun k hk ↦ by
        rw [List.getElem?_drop]
        exact hall _ (by omega) (by omega)
      omega
  · exact iff_of_false (fun h ↦ hi h.1) fun h ↦ hi h.1

/-! ### Positions -/

section Layout

variable {α : Type} (front members behind : List α) (header : α)

theorem layout_front {i : ℕ} (hi : i < front.length) :
    (front ++ header :: (members ++ behind))[i]? = front[i]? :=
  List.getElem?_append_left hi

theorem layout_header :
    (front ++ header :: (members ++ behind))[front.length]? = some header := by
  rw [List.getElem?_append_right le_rfl, Nat.sub_self, List.getElem?_cons_zero]

theorem layout_members {x : ℕ} (hx : x < members.length) :
    (front ++ header :: (members ++ behind))[front.length + 1 + x]? = members[x]? := by
  rw [List.getElem?_append_right (by omega),
    show front.length + 1 + x - front.length = x + 1 by omega, List.getElem?_cons_succ,
    List.getElem?_append_left hx]

theorem layout_behind (t : ℕ) :
    (front ++ header :: (members ++ behind))[front.length + 1 + members.length + t]? =
      behind[t]? := by
  rw [List.getElem?_append_right (by omega),
    show front.length + 1 + members.length + t - front.length = members.length + t + 1 by omega,
    List.getElem?_cons_succ, List.getElem?_append_right (by omega), Nat.add_sub_cancel_left]

end Layout

theorem getElem?_depth {row : ℕ} (h : row < indents.length) :
    indents[row]? = some (depthAt indents row) := by
  rw [depthAt, List.getD_eq_getElem?_getD, List.getElem?_eq_getElem h]
  rfl

/-- A row under another one in the old outline. -/
theorem inRange_old {a b : ℕ} (ha : a < indents.length) (hb : b < indents.length) :
    InRange (descendantRange indents a) b ↔
      a < b ∧ ∀ u, a < u → u ≤ b → depthAt indents a < depthAt indents u := by
  rw [inRange_descendantRange (getElem?_depth ha)]
  refine and_congr_right fun _ ↦ forall_congr' fun u ↦ imp_congr_right fun _ ↦
    forall_congr' fun hub ↦ ?_
  rw [getElem?_depth (by omega)]
  simp

variable (h : (List.range indents.length).filter (· ∈ selected) = first :: more)
include h

theorem filter_left : (List.range indents.length).filter (· ∉ selected) =
    List.range first ++ rowsLeft indents selected first := by
  obtain ⟨hlt, hin, hbefore, -⟩ := first_selected h
  have hsplit : List.range indents.length =
      List.range first ++ first :: List.Ico (first + 1) indents.length := by
    rw [← List.Ico.eq_cons hlt, ← List.Ico.zero_bot, ← List.Ico.zero_bot,
      List.Ico.append_consecutive (Nat.zero_le first) hlt.le]
  rw [hsplit, List.filter_append, List.filter_cons, if_neg (by simpa using hin), rowsLeft]
  congr 1
  exact List.filter_eq_self.mpr fun i hi ↦ decide_eq_true (hbefore i (List.mem_range.mp hi))

theorem perm_order : (groupSelection indents selected).order.Perm
    (-1 :: (List.range indents.length).map fun i : ℕ ↦ (i : ℤ)) := by
  rw [groupSelection_eq h]
  dsimp only
  refine List.perm_middle.trans (List.Perm.cons _ ?_)
  rw [← List.map_append, ← List.map_append]
  refine List.Perm.map _ ?_
  have hpartition := List.filter_append_perm (fun i ↦ decide (i ∈ selected))
    (List.range indents.length)
  have hothers : (List.range indents.length).filter (fun i ↦ !decide (i ∈ selected)) =
      List.range first ++ rowsLeft indents selected first := by
    rw [← filter_left h]
    exact List.filter_congr fun i _ ↦ by rw [decide_not]
  rw [h, hothers] at hpartition
  rw [← List.append_assoc] at hpartition ⊢
  exact (List.perm_append_comm.append_right _).trans hpartition

theorem nodup_order : (groupSelection indents selected).order.Nodup := by
  refine (perm_order h).nodup_iff.mpr (List.nodup_cons.mpr ⟨fun hneg ↦ ?_, ?_⟩)
  · obtain ⟨i, -, hi⟩ := List.mem_map.mp hneg
    omega
  · exact List.nodup_range.map fun _ _ hij ↦ Int.ofNat.inj hij

/-- Where the old rows are in the plan. -/
theorem order_eq_some {i row : ℕ} (hi : (groupSelection indents selected).order[i]? = some (row : ℤ)) :
    (i < first ∧ row = i) ∨ (∃ x, i = first + 1 + x ∧ (first :: more)[x]? = some row) ∨
      ∃ t, i = first + 1 + (first :: more).length + t ∧
        (rowsLeft indents selected first)[t]? = some row := by
  rw [groupSelection_eq h] at hi
  dsimp only at hi
  set members := first :: more with hmembers
  have hfront : ((List.range first).map fun i : ℕ ↦ (i : ℤ)).length = first := by simp
  have hcount : (members.map fun i : ℕ ↦ (i : ℤ)).length = members.length := List.length_map _
  rcases Nat.lt_trichotomy i first with hlt | heq | hgt
  · rw [layout_front _ _ _ _ (by omega), List.getElem?_map, List.getElem?_range hlt,
      Option.map_some, Option.some.injEq] at hi
    exact Or.inl ⟨hlt, by omega⟩
  · have hheader := layout_header ((List.range first).map fun i : ℕ ↦ (i : ℤ))
      (members.map fun i : ℕ ↦ (i : ℤ))
      ((rowsLeft indents selected first).map fun i : ℕ ↦ (i : ℤ)) (-1)
    rw [hfront] at hheader
    rw [heq, hheader, Option.some.injEq] at hi
    omega
  · have hcast : ∀ (l : List ℕ) (x : ℕ),
        (l.map fun i : ℕ ↦ (i : ℤ))[x]? = some (row : ℤ) → l[x]? = some row := by
      intro l x hx
      rw [List.getElem?_map] at hx
      obtain ⟨r, hr, hrow⟩ := Option.map_eq_some_iff.mp hx
      rw [hr, Int.ofNat.inj hrow]
    refine Or.inr ?_
    by_cases hx : i - (first + 1) < members.length
    · have hposition := layout_members ((List.range first).map fun i : ℕ ↦ (i : ℤ))
        (members.map fun i : ℕ ↦ (i : ℤ))
        ((rowsLeft indents selected first).map fun i : ℕ ↦ (i : ℤ)) (-1)
        (x := i - (first + 1)) (by omega)
      rw [hfront, show first + 1 + (i - (first + 1)) = i by omega, hi] at hposition
      exact Or.inl ⟨i - (first + 1), by omega, hcast _ _ hposition.symm⟩
    · have hposition := layout_behind ((List.range first).map fun i : ℕ ↦ (i : ℤ))
        (members.map fun i : ℕ ↦ (i : ℤ))
        ((rowsLeft indents selected first).map fun i : ℕ ↦ (i : ℤ)) (-1)
        (i - (first + 1 + members.length))
      rw [hfront, hcount, show first + 1 + members.length + (i - (first + 1 + members.length)) = i
        by omega, hi] at hposition
      exact Or.inr ⟨i - (first + 1 + members.length), by omega, hcast _ _ hposition.symm⟩

/-- The depths in the plan. -/
theorem indent_header : (groupSelection indents selected).indent[first]? =
    some (leastDepth indents first more) := by
  rw [groupSelection_eq h]
  have hheader := layout_header ((List.range first).map (depthAt indents))
    ((first :: more).map fun s ↦ depthAt indents s + 1)
    ((rowsLeft indents selected first).map (depthAt indents)) (leastDepth indents first more)
  rwa [List.length_map, List.length_range] at hheader

theorem indent_member {x : ℕ} (hx : x < (first :: more).length) :
    (groupSelection indents selected).indent[first + 1 + x]? =
      (first :: more)[x]?.map fun s ↦ depthAt indents s + 1 := by
  rw [groupSelection_eq h]
  have hmember := layout_members ((List.range first).map (depthAt indents))
    ((first :: more).map fun s ↦ depthAt indents s + 1)
    ((rowsLeft indents selected first).map (depthAt indents)) (leastDepth indents first more)
    (x := x) (by rwa [List.length_map])
  rwa [List.length_map, List.length_range, List.getElem?_map] at hmember

theorem indent_behind (t : ℕ) :
    (groupSelection indents selected).indent[first + 1 + (first :: more).length + t]? =
      (rowsLeft indents selected first)[t]?.map (depthAt indents) := by
  rw [groupSelection_eq h]
  have hbehind := layout_behind ((List.range first).map (depthAt indents))
    ((first :: more).map fun s ↦ depthAt indents s + 1)
    ((rowsLeft indents selected first).map (depthAt indents)) (leastDepth indents first more) t
  rwa [List.length_map, List.length_map, List.length_range, List.getElem?_map] at hbehind

/-- A selected row under another one in the plan: only the selected rows between count. -/
theorem inRange_new {x y a b : ℕ} (hx : (first :: more)[x]? = some a)
    (hy : (first :: more)[y]? = some b) :
    InRange (descendantRange (groupSelection indents selected).indent (first + 1 + x))
        (first + 1 + y) ↔
      a < b ∧ ∀ c ∈ first :: more, a < c → c ≤ b → depthAt indents a < depthAt indents c := by
  have hsorted : (first :: more).Pairwise (· < ·) := by
    rw [← h]
    exact List.pairwise_lt_range.filter _
  set members := first :: more with hmembers
  obtain ⟨hxLt, hxa⟩ := List.getElem?_eq_some_iff.mp hx
  obtain ⟨hyLt, hyb⟩ := List.getElem?_eq_some_iff.mp hy
  have hmono : ∀ z w (hz : z < members.length) (hw : w < members.length),
      z < w ↔ members[z] < members[w] := by
    intro z w hz hw
    constructor
    · exact fun hlt ↦ List.pairwise_iff_getElem.mp hsorted z w hz hw hlt
    · intro hlt
      by_contra hge
      rcases Nat.eq_or_lt_of_le (not_lt.mp hge) with heq | hgt
      · subst heq
        omega
      · have hback := List.pairwise_iff_getElem.mp hsorted w z hw hz hgt
        omega
  have hparent : (groupSelection indents selected).indent[first + 1 + x]? =
      some (depthAt indents a + 1) := by
    rw [indent_member h hxLt, hx]
    rfl
  rw [inRange_descendantRange hparent]
  refine and_congr ?_ ?_
  · rw [← hxa, ← hyb, ← hmono x y hxLt hyLt]
    omega
  · constructor
    · intro hall c hc hac hcb
      obtain ⟨z, hz, hzc⟩ := List.getElem_of_mem hc
      rw [← hxa, ← hzc, ← hmono x z hxLt hz] at hac
      have hzy : z ≤ y := by
        by_contra hgt
        have hlt := (hmono y z hyLt hz).mp (by omega)
        omega
      obtain ⟨d, hd, hlt⟩ := hall (first + 1 + z) (by omega) (by omega)
      rw [indent_member h hz, List.getElem?_eq_getElem hz, Option.map_some,
        Option.some.injEq] at hd
      rw [← hzc]
      omega
    · intro hall k hk hky
      have hz : k - (first + 1) < members.length := by omega
      refine ⟨depthAt indents members[k - (first + 1)] + 1, ?_, ?_⟩
      · have hposition := indent_member h hz
        rw [show first + 1 + (k - (first + 1)) = k by omega] at hposition
        rw [hposition, List.getElem?_eq_getElem hz]
        rfl
      · have hac := (hmono x (k - (first + 1)) hxLt hz).mp (by omega)
        have hcb : members[k - (first + 1)] ≤ members[y] := by
          by_contra hgt
          have hlt := (hmono y (k - (first + 1)) hyLt hz).mpr (not_le.mp hgt)
          omega
        have hlt := hall members[k - (first + 1)] (List.getElem_mem hz) (by omega) (by omega)
        omega

/-- The rows of the plan under its header are the selected ones exactly if the first row left out
behind them is not deeper than any of them. -/
theorem members_iff :
    (∀ header, (groupSelection indents selected).order[header]? = some (-1) → ∀ (i row : ℕ),
      (groupSelection indents selected).order[i]? = some (row : ℤ) →
        (InRange (descendantRange (groupSelection indents selected).indent header) i ↔
          row ∈ selected)) ↔
    ∀ u, (rowsLeft indents selected first)[0]? = some u →
      ∀ s ∈ first :: more, depthAt indents u ≤ depthAt indents s := by
  obtain ⟨hlt, hin, hbefore, hmem⟩ := first_selected h
  have horder := groupSelection_eq h
  have hheaderAt : (groupSelection indents selected).order[first]? = some (-1) := by
    rw [horder]
    have hheader := layout_header ((List.range first).map fun i : ℕ ↦ (i : ℤ))
      ((first :: more).map fun i : ℕ ↦ (i : ℤ))
      ((rowsLeft indents selected first).map fun i : ℕ ↦ (i : ℤ)) (-1)
    rwa [List.length_map, List.length_range] at hheader
  have hrange : ∀ i, InRange (descendantRange (groupSelection indents selected).indent first) i ↔
      first < i ∧ ∀ k, first < k → k ≤ i →
        ∃ d, (groupSelection indents selected).indent[k]? = some d ∧
          leastDepth indents first more < d := fun i ↦ inRange_descendantRange (indent_header h)
  -- the selected rows are below the header
  have hmembers : ∀ k, first < k → k ≤ first + (first :: more).length →
      ∃ d, (groupSelection indents selected).indent[k]? = some d ∧
        leastDepth indents first more < d := by
    intro k hk hkLe
    have hx : k - (first + 1) < (first :: more).length := by omega
    have hposition := indent_member h hx
    rw [show first + 1 + (k - (first + 1)) = k by omega, List.getElem?_eq_getElem hx,
      Option.map_some] at hposition
    refine ⟨_, hposition, leastDepth_lt_iff.mpr ⟨_, List.getElem_mem hx, by omega⟩⟩
  constructor
  · intro hall u hu s hs
    have hat : (groupSelection indents selected).order[first + 1 + (first :: more).length + 0]? =
        some (u : ℤ) := by
      rw [horder]
      have hbehind := layout_behind ((List.range first).map fun i : ℕ ↦ (i : ℤ))
        ((first :: more).map fun i : ℕ ↦ (i : ℤ))
        ((rowsLeft indents selected first).map fun i : ℕ ↦ (i : ℤ)) (-1) 0
      rwa [List.length_map, List.length_map, List.length_range, List.getElem?_map, hu] at hbehind
    have hout : u ∉ selected := by
      have hmemLeft := List.mem_of_getElem? hu
      rw [rowsLeft, List.mem_filter, decide_eq_true_eq] at hmemLeft
      exact hmemLeft.2
    by_contra hdeep
    refine hout ((hall first hheaderAt _ u hat).mp ((hrange _).mpr ⟨by omega, fun k hk hkLe ↦ ?_⟩))
    by_cases hlast : k = first + 1 + (first :: more).length + 0
    · refine ⟨depthAt indents u, ?_, leastDepth_lt_iff.mpr ⟨s, hs, not_le.mp hdeep⟩⟩
      rw [hlast, indent_behind h, hu]
      rfl
    · exact hmembers k hk (by omega)
  · intro hbehind header hheader i row hi
    obtain rfl : header = first := (List.getElem?_inj (List.getElem?_eq_some_iff.mp hheader).1
      (nodup_order h)).mp (hheader.trans hheaderAt.symm)
    rw [hrange]
    rcases order_eq_some h hi with ⟨hlow, rfl⟩ | ⟨x, rfl, hx⟩ | ⟨t, rfl, ht⟩
    · exact iff_of_false (fun hcond ↦ by omega) (hbefore row hlow)
    · have hxLt := (List.getElem?_eq_some_iff.mp hx).1
      exact iff_of_true ⟨by omega, fun k hk hkLe ↦ hmembers k hk (by omega)⟩
        ((hmem row).mp (List.mem_of_getElem? hx)).2
    · refine iff_of_false (fun hcond ↦ ?_) fun hsel ↦ ?_
      · have htLt := (List.getElem?_eq_some_iff.mp ht).1
        have hzero : 0 < (rowsLeft indents selected header).length := by omega
        obtain ⟨d, hd, hlow⟩ := hcond.2 (header + 1 + (header :: more).length + 0) (by omega)
          (by omega)
        rw [indent_behind h, List.getElem?_eq_getElem hzero, Option.map_some,
          Option.some.injEq] at hd
        obtain ⟨s, hs, hsLt⟩ := leastDepth_lt_iff.mp hlow
        have hle := hbehind _ (List.getElem?_eq_getElem hzero) s hs
        omega
      · have hleft := List.mem_of_getElem? ht
        rw [rowsLeft, List.mem_filter, decide_eq_true_eq] at hleft
        exact hleft.2 hsel

/-- The nesting of the selected rows is kept exactly if no row left out ends it. -/
theorem nesting_iff :
    (∀ i j a b : ℕ, a ∈ selected → b ∈ selected →
      (groupSelection indents selected).order[i]? = some (a : ℤ) →
      (groupSelection indents selected).order[j]? = some (b : ℤ) →
        (InRange (descendantRange (groupSelection indents selected).indent i) j ↔
          InRange (descendantRange indents a) b)) ↔
    ∀ a ∈ first :: more, ∀ b ∈ first :: more, a < b →
      (∀ c ∈ first :: more, a < c → c ≤ b → depthAt indents a < depthAt indents c) →
        ∀ u, a < u → u ≤ b → depthAt indents a < depthAt indents u := by
  obtain ⟨hlt, hin, hbefore, hmem⟩ := first_selected h
  have hposition : ∀ (i a : ℕ), a ∈ selected →
      (groupSelection indents selected).order[i]? = some (a : ℤ) →
        ∃ x, i = first + 1 + x ∧ (first :: more)[x]? = some a := by
    intro i a ha hi
    rcases order_eq_some h hi with ⟨hlow, rfl⟩ | hx | ⟨t, -, ht⟩
    · exact absurd ha (hbefore a hlow)
    · exact hx
    · have hleft := List.mem_of_getElem? ht
      rw [rowsLeft, List.mem_filter, decide_eq_true_eq] at hleft
      exact absurd ha hleft.2
  have horder : ∀ x a : ℕ, (first :: more)[x]? = some a →
      (groupSelection indents selected).order[first + 1 + x]? = some (a : ℤ) := by
    intro x a hx
    rw [groupSelection_eq h]
    have hmember := layout_members ((List.range first).map fun i : ℕ ↦ (i : ℤ))
      ((first :: more).map fun i : ℕ ↦ (i : ℤ))
      ((rowsLeft indents selected first).map fun i : ℕ ↦ (i : ℤ)) (-1) (x := x)
      (by rw [List.length_map]; exact (List.getElem?_eq_some_iff.mp hx).1)
    rwa [List.length_map, List.length_range, List.getElem?_map, hx] at hmember
  constructor
  · intro hall a ha b hb hab hdeep u hau hub
    obtain ⟨x, hxLt, hx⟩ := List.getElem_of_mem ha
    obtain ⟨y, hyLt, hy⟩ := List.getElem_of_mem hb
    have hx := List.getElem?_eq_some_iff.mpr ⟨hxLt, hx⟩
    have hy := List.getElem?_eq_some_iff.mpr ⟨hyLt, hy⟩
    have hkept := hall _ _ a b ((hmem a).mp ha).2 ((hmem b).mp hb).2 (horder x a hx) (horder y b hy)
    rw [inRange_new h hx hy, inRange_old ((hmem a).mp ha).1 ((hmem b).mp hb).1] at hkept
    exact (hkept.mp ⟨hab, hdeep⟩).2 u hau hub
  · intro hbetween i j a b ha hb hi hj
    obtain ⟨x, rfl, hx⟩ := hposition i a ha hi
    obtain ⟨y, rfl, hy⟩ := hposition j b hb hj
    have haMem := List.mem_of_getElem? hx
    have hbMem := List.mem_of_getElem? hy
    rw [inRange_new h hx hy, inRange_old ((hmem a).mp haMem).1 ((hmem b).mp hbMem).1]
    refine and_congr_right fun hab ↦ ⟨fun hdeep u hau hub ↦
      hbetween a haMem b hbMem hab hdeep u hau hub, fun hdeep c _ hac hcb ↦ hdeep c hac hcb⟩

/-- The first row left out behind a selected one. -/
theorem rowsLeft_head_iff {u : ℕ} : (rowsLeft indents selected first)[0]? = some u ↔
    u < indents.length ∧ u ∉ selected ∧ (∃ s ∈ selected, s < u) ∧
      ∀ v < u, v ∉ selected → ∀ s ∈ selected, s < indents.length → v < s := by
  obtain ⟨hlt, hin, hbefore, hmem⟩ := first_selected h
  have hleast : ∀ s ∈ selected, first ≤ s := fun s hs ↦ not_lt.mp fun hsLt ↦ hbefore s hsLt hs
  have hleft : ∀ v, v ∈ rowsLeft indents selected first ↔
      first < v ∧ v < indents.length ∧ v ∉ selected := by
    intro v
    rw [rowsLeft, List.mem_filter, List.Ico.mem, decide_eq_true_eq, and_assoc]
    rfl
  have hsorted : (rowsLeft indents selected first).Pairwise (· < ·) :=
    (List.Ico.pairwise_lt _ _).filter _
  constructor
  · intro hu
    obtain ⟨hfirst, huLt, hout⟩ := (hleft u).mp (List.mem_of_getElem? hu)
    refine ⟨huLt, hout, ⟨first, hin, hfirst⟩, fun v hv hvOut s hs hsLt ↦ ?_⟩
    have hge := hleast s hs
    by_contra hvs
    have hne : v ≠ first := fun heq ↦ hvOut (heq ▸ hin)
    have hvLeft := (hleft v).mpr ⟨by omega, by omega, hvOut⟩
    cases hrows : rowsLeft indents selected first with
    | nil =>
      rw [hrows] at hvLeft
      cases hvLeft
    | cons w rest =>
      rw [hrows, List.getElem?_cons_zero, Option.some.injEq] at hu
      rw [hrows] at hvLeft hsorted
      rcases List.mem_cons.mp hvLeft with heq | hrest
      · omega
      · have hwv := (List.pairwise_cons.mp hsorted).1 v hrest
        omega
  · rintro ⟨huLt, hout, ⟨s, hs, hsu⟩, hminimal⟩
    have hge := hleast s hs
    have huLeft := (hleft u).mpr ⟨by omega, huLt, hout⟩
    cases hrows : rowsLeft indents selected first with
    | nil =>
      rw [hrows] at huLeft
      cases huLeft
    | cons w rest =>
      rw [List.getElem?_cons_zero, Option.some.injEq]
      have hw := (hleft w).mp (by rw [hrows]; exact List.mem_cons_self)
      rw [hrows] at huLeft hsorted
      rcases List.mem_cons.mp huLeft with heq | hrest
      · exact heq.symm
      · have hwu := (List.pairwise_cons.mp hsorted).1 u hrest
        have hwFirst := hminimal w hwu hw.2.2 first hin hlt
        omega

omit h

end Plan

/-- A selection is grouped as it should be exactly if the rows that are left out stay out of it. -/
theorem groupSelection_groups_iff (indents : List ℤ) (selected : List ℕ) :
    ((groupSelection indents selected).ok = true →
        Groups indents selected (groupSelection indents selected)) ↔
      Groupable indents selected := by
  cases h : (List.range indents.length).filter (· ∈ selected) with
  | nil =>
    have hnone : ∀ s ∈ selected, ¬s < indents.length := by
      intro s hs hlt
      have hmem : s ∈ (List.range indents.length).filter (· ∈ selected) := by
        rw [List.mem_filter, List.mem_range, decide_eq_true_eq]
        exact ⟨hlt, hs⟩
      rw [h] at hmem
      cases hmem
    have hplan : groupSelection indents selected = {} := by
      unfold groupSelection
      rw [selectedRows_eq, h]
    rw [hplan]
    refine iff_of_true (fun hok ↦ by cases hok) ⟨?_, ?_⟩
    · exact fun u hu _ ⟨s, hs, hsu⟩ ↦ absurd (hsu.trans hu) (hnone s hs)
    · exact fun a _ b hb _ hlt ↦ absurd hlt (hnone b hb)
  | cons first more =>
    obtain ⟨hlt, hin, hbefore, hmem⟩ := first_selected h
    have hok : (groupSelection indents selected).ok = true := by
      rw [groupSelection_eq h]
    have hsplit : Groups indents selected (groupSelection indents selected) ↔
        (∀ u, (rowsLeft indents selected first)[0]? = some u →
          ∀ s ∈ first :: more, depthAt indents u ≤ depthAt indents s) ∧
        ∀ a ∈ first :: more, ∀ b ∈ first :: more, a < b →
          (∀ c ∈ first :: more, a < c → c ≤ b → depthAt indents a < depthAt indents c) →
            ∀ u, a < u → u ≤ b → depthAt indents a < depthAt indents u := by
      rw [← members_iff h, ← nesting_iff h]
      refine ⟨fun hgroups ↦ ⟨hgroups.members, hgroups.nesting⟩, fun ⟨hmembers, hnesting⟩ ↦
        ⟨perm_order h, hmembers, hnesting, ?_, ?_⟩⟩
      · rw [h, groupSelection_eq h]
        exact ((List.sublist_append_left _ _).trans (List.sublist_cons_self _ _)).trans
          (List.sublist_append_right _ _)
      · rw [filter_left h, groupSelection_eq h, List.map_append]
        exact (List.Sublist.refl _).append
          ((List.sublist_append_right _ _).trans (List.sublist_cons_self _ _))
    rw [imp_iff_right hok, hsplit]
    constructor
    · rintro ⟨hbehind, hbetween⟩
      refine ⟨fun u hu hout hsel hminimal s hs hsLt ↦ ?_, fun a ha b hb hab hbLt hdeep ↦ ?_⟩
      · exact hbehind u ((rowsLeft_head_iff h).mpr ⟨hu, hout, hsel, hminimal⟩) s
          ((hmem s).mpr ⟨hsLt, hs⟩)
      · exact hbetween a ((hmem a).mpr ⟨by omega, ha⟩) b ((hmem b).mpr ⟨hbLt, hb⟩) hab
          fun c hc ↦ hdeep c ((hmem c).mp hc).2
    · rintro ⟨hbehind, hbetween⟩
      refine ⟨fun u hu s hs ↦ ?_, fun a ha b hb hab hdeep ↦ ?_⟩
      · obtain ⟨huLt, hout, hsel, hminimal⟩ := (rowsLeft_head_iff h).mp hu
        exact hbehind u huLt hout hsel hminimal s ((hmem s).mp hs).2 ((hmem s).mp hs).1
      · obtain ⟨hbLt, hbSel⟩ := (hmem b).mp hb
        exact hbetween a ((hmem a).mp ha).2 b hbSel hab hbLt fun c hc hac hcb ↦
          hdeep c ((hmem c).mpr ⟨by omega, hc⟩) hac hcb

/-- The row between two selected ones does not fall out: it hangs under the new header. -/
theorem row_between_not_grouped :
    (groupSelection [0, 1, 0] [0, 2]).ok = true ∧
      ¬Groups [0, 1, 0] [0, 2] (groupSelection [0, 1, 0] [0, 2]) := by
  refine ⟨by decide, fun hgroups ↦ ?_⟩
  have hmember := hgroups.members 0 (by decide) 3 1 (by decide)
  unfold InRange at hmember
  revert hmember
  decide

end Cecore.Table
