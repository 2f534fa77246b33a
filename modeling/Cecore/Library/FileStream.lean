import Mathlib.Data.List.Basic

/-!
# Writing a file in pieces

A file that is written by calls of `fwrite`, up to the first that does not take all its bytes. Bytes
that were taken may still be lost when the stream is closed. Where every call takes its bytes, the
file holds all that was written, less what is lost in the end (`written_of_ok`).
-/

set_option autoImplicit false
set_option relaxedAutoImplicit false

namespace Cecore.Library.FileStream

theorem flatten_flatMap {α β : Type} (items : List α) (pieces : α → List (List β)) :
    (items.flatMap pieces).flatten = items.flatMap fun item ↦ (pieces item).flatten := by
  rw [List.flatMap, List.flatten_flatten, List.map_map]
  rfl

/-- What becomes of the calls that write a file. -/
structure Device where
  /-- `fopen` succeeds. -/
  opens : Bool
  /-- How many bytes a call of `fwrite` takes, of so many. -/
  takes : (call size : ℕ) → ℕ
  /-- How many of the last bytes `fclose` fails to write out. -/
  loses : ℕ

/-- A device that writes everything. -/
def Device.reliable : Device where
  opens := true
  takes := fun _ size ↦ size
  loses := 0

namespace Device

variable (device : Device)

/-- The pieces are written one after the other, until one is not taken: the bytes taken, and whether
all of them were. -/
def writePieces : (call : ℕ) → List (List UInt8) → List UInt8 × Bool
  | _, [] => ([], true)
  | call, piece :: rest =>
    if piece.length ≤ device.takes call piece.length then
      let later := writePieces (call + 1) rest
      (piece ++ later.1, later.2)
    else (piece.take (device.takes call piece.length), false)

/-- Whether a file was written, as far as `fwrite` says, and the file. -/
def writeFile (pieces : List (List UInt8)) : Bool × Option (List UInt8) :=
  if device.opens then
    let written := device.writePieces 0 pieces
    (written.2, some (written.1.take (written.1.length - device.loses)))
  else (false, none)

variable {device}

theorem writePieces_of_ok {call : ℕ} {pieces : List (List UInt8)}
    (h : (device.writePieces call pieces).2 = true) :
    (device.writePieces call pieces).1 = pieces.flatten := by
  induction pieces generalizing call with
  | nil => rfl
  | cons piece rest ih =>
    unfold writePieces at h ⊢
    split_ifs at h ⊢ with htakes
    rw [List.flatten_cons]
    exact congrArg (piece ++ ·) (ih h)

/-- The file holds what was written, less what is lost in the end. -/
theorem written_of_ok {pieces : List (List UInt8)} (h : (device.writeFile pieces).1 = true) :
    (device.writeFile pieces).2 =
      some (pieces.flatten.take (pieces.flatten.length - device.loses)) := by
  unfold writeFile at h ⊢
  split_ifs at h ⊢ with hopens
  dsimp only at h ⊢
  rw [writePieces_of_ok h]

theorem written_of_keeps {pieces : List (List UInt8)} (h : (device.writeFile pieces).1 = true)
    (hkeeps : device.loses = 0) : (device.writeFile pieces).2 = some pieces.flatten := by
  rw [written_of_ok h, hkeeps, Nat.sub_zero, List.take_length]

theorem writeFile_reliable (pieces : List (List UInt8)) :
    reliable.writeFile pieces = (true, some pieces.flatten) := by
  have hpieces : ∀ call, (reliable.writePieces call pieces).2 = true := by
    induction pieces with
    | nil => exact fun _ ↦ rfl
    | cons piece rest ih =>
      intro call
      unfold writePieces
      rw [if_pos (show piece.length ≤ reliable.takes call piece.length from Nat.le_refl _)]
      exact ih (call + 1)
  have hok : (reliable.writeFile pieces).1 = true := hpieces 0
  exact Prod.ext hok (written_of_keeps hok rfl)

end Device

end Cecore.Library.FileStream
