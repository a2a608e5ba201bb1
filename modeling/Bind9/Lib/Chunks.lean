import Mathlib.Data.List.Basic
import Mathlib.Tactic

/-! # Encoding in chunks

A list is cut into chunks of `k + 1` entries, the last one perhaps shorter, and each is encoded for itself (`encodeChunks`).
`wrapped` also puts a break between some chunks; without the entries of the breaks it is the same text (`filter_wrapped`).
The last section joins bit fields of numbers. -/

namespace Chunks

open List

section Encoding

variable {α β : Type} (k : ℕ) (encode : List α → List β)

/-- The texts of the chunks, one after the other. -/
def encodeChunks : List α → List β
  | [] => []
  | a :: rest => encode (a :: rest.take k) ++ encodeChunks (rest.drop k)
termination_by l => l.length

/-- The texts of the chunks with breaks; `full` says whether the word is full after so many chunks. -/
def wrapped (full : ℕ → Bool) (wordbreak : List β) : ℕ → List α → List β
  | _, [] => []
  | n, a :: rest =>
    encode (a :: rest.take k) ++
      if rest.drop k = [] then []
      else if full (n + 1) then wordbreak ++ wrapped full wordbreak 0 (rest.drop k)
      else wrapped full wordbreak (n + 1) (rest.drop k)
termination_by _ l => l.length

variable {k encode}

/-- The breaks are all that is added. -/
theorem filter_wrapped {p : β → Bool} {full : ℕ → Bool} {wordbreak : List β} (hbreak : ∀ b ∈ wordbreak, p b = false)
    (h : ∀ l, ∀ b ∈ encode l, p b = true) (n : ℕ) (l : List α) :
    (wrapped k encode full wordbreak n l).filter p = encodeChunks k encode l := by
  induction n, l using wrapped.induct k with
  | case1 n => simp [wrapped, encodeChunks]
  | case2 n a rest ih0 ih1 =>
    rw [wrapped, encodeChunks, filter_append, filter_eq_self.2 (h _)]
    congr 1
    by_cases hnil : rest.drop k = []
    · rw [if_pos hnil, hnil, encodeChunks, filter_nil]
    rw [if_neg hnil]
    by_cases hfull : full (n + 1) = true
    · rw [if_pos hfull, filter_append, ih0, filter_eq_nil_iff.2 (fun b hb => by simp [hbreak b hb]), nil_append]
    · rw [if_neg hfull, ih1]

theorem wrapped_forall {p : β → Prop} {full : ℕ → Bool} {wordbreak : List β} (hbreak : ∀ b ∈ wordbreak, p b)
    (h : ∀ l, ∀ b ∈ encode l, p b) (n : ℕ) (l : List α) : ∀ b ∈ wrapped k encode full wordbreak n l, p b := by
  induction n, l using wrapped.induct k with
  | case1 n => simp [wrapped]
  | case2 n a rest ih0 ih1 =>
    intro b hb
    rw [wrapped] at hb
    obtain hb | hb := mem_append.1 hb
    · exact h _ b hb
    split at hb
    · simp at hb
    split at hb
    · obtain hb | hb := mem_append.1 hb
      · exact hbreak b hb
      · exact ih0 b hb
    · exact ih1 b hb

end Encoding

/-! ### Bit fields -/

theorem shiftLeft_or {hi lo i : ℕ} (h : lo < 2 ^ i) : hi <<< i ||| lo = hi * 2 ^ i + lo := by
  rw [← Nat.shiftLeft_add_eq_or_of_lt h, Nat.shiftLeft_eq]

theorem shiftLeft_and (n i j : ℕ) : n <<< i &&& (2 ^ j - 1) <<< i = n % 2 ^ j * 2 ^ i := by
  rw [← Nat.shiftLeft_and_distrib, Nat.and_two_pow_sub_one_eq_mod, Nat.shiftLeft_eq]

theorem shiftRight_and (n i j : ℕ) : n >>> i &&& 2 ^ j - 1 = n / 2 ^ i % 2 ^ j := by
  rw [Nat.shiftRight_eq_div_pow, Nat.and_two_pow_sub_one_eq_mod]

/-- Low bits of one number in front of some bits of another one. -/
theorem joined (a b i j k l : ℕ) (h : l ≤ i) :
    a <<< i &&& (2 ^ j - 1) <<< i ||| b >>> k &&& 2 ^ l - 1 = a % 2 ^ j * 2 ^ i + b / 2 ^ k % 2 ^ l := by
  have hlt : b / 2 ^ k % 2 ^ l < 2 ^ i := (Nat.mod_lt _ (by positivity)).trans_le (Nat.pow_le_pow_right (by decide) h)
  rw [shiftLeft_and, shiftRight_and, ← Nat.shiftLeft_eq, shiftLeft_or hlt, Nat.shiftLeft_eq]

end Chunks
