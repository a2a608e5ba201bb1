import Mathlib.Data.List.Basic
import Mathlib.Tactic

/-! # Files as sequences of bytes

A file is the list of its bytes.  Writing replaces the bytes from an offset on and makes the file longer where it has
to; reading takes bytes or fails at the end of the file.  A file that is known as a sequence of segments is read and
written segment by segment (`writeAt_append`, `readAt_append`). -/

namespace FileImage

open List

variable {α : Type}

/-- The file after `bs` was written at `offset`; a gap behind the old end is filled with `zero`. -/
def writeAt (zero : α) (file : List α) (offset : ℕ) (bs : List α) : List α :=
  file.take offset ++ replicate (offset - file.length) zero ++ bs ++ file.drop (offset + bs.length)

/-- The `n` bytes at `offset`, if the file has them. -/
def readAt (file : List α) (offset n : ℕ) : Option (List α) :=
  if offset + n ≤ file.length then some ((file.drop offset).take n) else none

theorem writeAt_length (zero : α) (file : List α) (offset : ℕ) (bs : List α) :
    (writeAt zero file offset bs).length = max file.length (offset + bs.length) := by
  simp only [writeAt, length_append, length_take, length_replicate, length_drop]
  omega

theorem length_le_writeAt (zero : α) (file : List α) (offset : ℕ) (bs : List α) :
    file.length ≤ (writeAt zero file offset bs).length := by
  rw [writeAt_length]
  exact le_max_left _ _

theorem writeAt_append (zero : α) {a : List α} {offset : ℕ} (rest bs : List α) (h : offset = a.length) :
    writeAt zero (a ++ rest) offset bs = a ++ (bs ++ rest.drop bs.length) := by
  have hgap : offset - (a ++ rest).length = 0 := by simp [h]
  rw [writeAt, hgap, h, take_left, replicate_zero, append_nil, drop_append,
    drop_of_length_le (by omega), nil_append, Nat.add_sub_cancel_left, append_assoc]

theorem writeAt_segment (zero : α) {a b bs : List α} {offset : ℕ} (rest : List α) (h : offset = a.length)
    (hlen : bs.length = b.length) : writeAt zero (a ++ (b ++ rest)) offset bs = a ++ (bs ++ rest) := by
  rw [writeAt_append zero _ bs h, hlen, drop_left]

theorem readAt_append {a b : List α} {offset n : ℕ} (rest : List α) (h : offset = a.length) (hn : n = b.length) :
    readAt (a ++ (b ++ rest)) offset n = some b := by
  rw [readAt, if_pos (by simp [h, hn]), h, drop_left, hn, take_left]

theorem readAt_length {file bs : List α} {offset n : ℕ} (h : readAt file offset n = some bs) : offset + n ≤ file.length := by
  unfold readAt at h
  split at h
  · assumption
  · cases h

end FileImage
