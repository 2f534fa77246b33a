import Mathlib.Data.List.Basic
import Mathlib.Data.List.TakeDrop
import Mathlib.Tactic.Ring

/-!
# Records of one width

A file of records that all have the same width is the concatenation of the records. Cutting it at
multiples of the width cuts the list of records: `drop_flatMap`, `take_flatMap` and
`slice_flatMap`.
-/

set_option autoImplicit false
set_option relaxedAutoImplicit false

namespace Cecore.Library.Records

variable {α β : Type} {records : List α} {encode : α → List β} {width : ℕ}

theorem length_flatMap (hwidth : ∀ record ∈ records, (encode record).length = width) :
    (records.flatMap encode).length = records.length * width := by
  induction records with
  | nil => simp
  | cons record rest ih =>
    rw [List.flatMap_cons, List.length_append, hwidth record List.mem_cons_self,
      ih fun other hother ↦ hwidth other (List.mem_cons_of_mem _ hother), List.length_cons]
    ring

theorem drop_flatMap (hwidth : ∀ record ∈ records, (encode record).length = width) (count : ℕ) :
    (records.flatMap encode).drop (count * width) = (records.drop count).flatMap encode := by
  induction count generalizing records with
  | zero => simp
  | succ count ih =>
    cases records with
    | nil => simp
    | cons record rest =>
      have hhead := hwidth record List.mem_cons_self
      have hindex : (count + 1) * width = (encode record).length + count * width := by
        rw [hhead]
        ring
      rw [List.flatMap_cons, hindex, List.drop_length_add_append, List.drop_succ_cons,
        ih fun other hother ↦ hwidth other (List.mem_cons_of_mem _ hother)]

theorem take_flatMap (hwidth : ∀ record ∈ records, (encode record).length = width) (count : ℕ) :
    (records.flatMap encode).take (count * width) = (records.take count).flatMap encode := by
  induction count generalizing records with
  | zero => simp
  | succ count ih =>
    cases records with
    | nil => simp
    | cons record rest =>
      have hhead := hwidth record List.mem_cons_self
      have hindex : (count + 1) * width = (encode record).length + count * width := by
        rw [hhead]
        ring
      rw [List.flatMap_cons, hindex, List.take_length_add_append, List.take_succ_cons,
        List.flatMap_cons, ih fun other hother ↦ hwidth other (List.mem_cons_of_mem _ hother)]

/-- The bytes at a record's place are the record. -/
theorem slice_flatMap (hwidth : ∀ record ∈ records, (encode record).length = width) {index : ℕ}
    {record : α} (hrecord : records[index]? = some record) :
    ((records.flatMap encode).drop (index * width)).take width = encode record := by
  have hdrop : records.drop index = record :: records.drop (index + 1) := by
    obtain ⟨hlt, hget⟩ := List.getElem?_eq_some_iff.mp hrecord
    rw [List.drop_eq_getElem_cons hlt, hget]
  have hmem := List.mem_of_getElem? hrecord
  rw [drop_flatMap hwidth, hdrop, List.flatMap_cons, ← hwidth record hmem, List.take_left]

end Cecore.Library.Records
