import Mathlib.Data.Fintype.Card
import Mathlib.Logic.Function.Basic
import Mathlib.Tactic

/-! # Counting threads

A system of threads keeps for each thread the place where it is.  A counter that threads raise and lower equals the number
of threads at certain places; a step of one thread moves this thread only. -/

namespace Threads

open Function

variable {T P : Type} [Fintype T]

/-- The number of threads at a place with `p`. -/
def count (p : P → Bool) (place : T → P) : ℕ := (Finset.univ.filter (fun t => p (place t) = true)).card

theorem count_le_card (p : P → Bool) (place : T → P) : count p place ≤ Fintype.card T :=
  (Finset.card_filter_le _ _).trans (le_of_eq Finset.card_univ)

variable {p : P → Bool} {place : T → P}

theorem count_eq_zero : count p place = 0 ↔ ∀ t, p (place t) = false := by
  rw [count, Finset.card_eq_zero, Finset.filter_eq_empty_iff]
  simp

theorem count_pos {t : T} (h : p (place t) = true) : 0 < count p place :=
  Finset.card_pos.2 ⟨t, by simpa using h⟩

/-- If one thread is at most at such a place, there are no two. -/
theorem eq_of_count_le_one (h : count p place ≤ 1) {t u : T} (ht : p (place t) = true) (hu : p (place u) = true) : t = u :=
  Finset.card_le_one.1 h t (by simpa using ht) u (by simpa using hu)

theorem count_mono {p q : P → Bool} (place : T → P) (h : ∀ x, p x = true → q x = true) : count p place ≤ count q place :=
  Finset.card_le_card (Finset.monotone_filter_right _ (fun t _ => h (place t)))

theorem exists_of_count_pos (h : 0 < count p place) : ∃ t, p (place t) = true := by
  obtain ⟨t, ht⟩ := Finset.card_pos.1 h
  exact ⟨t, (Finset.mem_filter.1 ht).2⟩

variable [DecidableEq T]

/-- A step moves one thread. -/
theorem count_update (p : P → Bool) (place : T → P) (t : T) (x : P) :
    count p (update place t x) + (p (place t)).toNat = count p place + (p x).toNat := by
  have hsplit : ∀ f : T → P, count p f = ((Finset.univ.erase t).filter (fun u => p (f u) = true)).card + (p (f t)).toNat := by
    intro f
    rw [count, ← Finset.insert_erase (Finset.mem_univ t), Finset.filter_insert, Finset.erase_insert (Finset.notMem_erase t _)]
    cases h : p (f t) with
    | true =>
      rw [if_pos rfl, Finset.card_insert_of_notMem (by simp)]
      rfl
    | false =>
      rw [if_neg Bool.false_ne_true]
      rfl
  have hrest : (Finset.univ.erase t).filter (fun u => p (update place t x u) = true) =
      (Finset.univ.erase t).filter (fun u => p (place u) = true) := by
    apply Finset.filter_congr
    intro u hu
    rw [update_of_ne (Finset.ne_of_mem_erase hu)]
  rw [hsplit, hsplit place, hrest, update_self]
  omega

end Threads
