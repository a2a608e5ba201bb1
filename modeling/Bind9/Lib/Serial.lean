import Mathlib.Data.UInt
import Mathlib.Tactic

/-! # Serial numbers

Serial number arithmetic on 32 bits: one number is greater than another when it is at most half the space ahead of it.
Numbers that lie on a way to a last number `e` are written as `back e d`, `d` steps before `e`; for distances below
half the space, the order of the numbers is the reverse order of the distances. -/

namespace Serial

/-- `a` is ahead of `b`. -/
def gt (a b : UInt32) : Bool := decide (0 < (a - b).toNat ∧ (a - b).toNat < 2 ^ 31)

/-- `a` is ahead of `b` or equal to it. -/
def ge (a b : UInt32) : Bool := decide ((a - b).toNat < 2 ^ 31)

/-- The number `d` steps before `e`. -/
def back (e : UInt32) (d : ℕ) : UInt32 := e - UInt32.ofNat d

@[simp] theorem back_zero (e : UInt32) : back e 0 = e := by simp [back]

theorem back_back (e : UInt32) (d d' : ℕ) : back (back e d) d' = back e (d + d') := by
  apply UInt32.toNat_inj.1
  simp only [back, UInt32.toNat_sub, UInt32.toNat_ofNat']
  omega

theorem back_of_last {e e' : UInt32} {k : ℕ} (h : e = back e' k) (d : ℕ) : back e d = back e' (k + d) := by
  rw [h, back_back]

theorem eq_back (a b : UInt32) : b = back a (a - b).toNat := by
  apply UInt32.toNat_inj.1
  simp only [back, UInt32.toNat_sub, UInt32.toNat_ofNat']
  have := a.toNat_lt
  have := b.toNat_lt
  omega

variable {a b : ℕ}

theorem sub_back (e : UInt32) (ha : a < 2 ^ 32) (hb : b < 2 ^ 32) :
    (back e a - back e b).toNat = if a ≤ b then b - a else 2 ^ 32 + b - a := by
  simp only [back, UInt32.toNat_sub, UInt32.toNat_ofNat']
  have := e.toNat_lt
  split <;> omega

theorem gt_back (e : UInt32) (ha : a < 2 ^ 31) (hb : b < 2 ^ 31) : gt (back e a) (back e b) = decide (a < b) := by
  rw [gt, sub_back e (by omega) (by omega), decide_eq_decide]
  split <;> omega

theorem ge_back (e : UInt32) (ha : a < 2 ^ 31) (hb : b < 2 ^ 31) : ge (back e a) (back e b) = decide (a ≤ b) := by
  rw [ge, sub_back e (by omega) (by omega), decide_eq_decide]
  split <;> omega

theorem back_inj (e : UInt32) (ha : a < 2 ^ 31) (hb : b < 2 ^ 31) : back e a = back e b ↔ a = b := by
  constructor
  · intro h
    have hsub := sub_back e (a := a) (b := b) (by omega) (by omega)
    rw [h, UInt32.sub_self] at hsub
    simp only [UInt32.toNat_zero] at hsub
    split at hsub <;> omega
  · rintro rfl
    rfl

theorem ge_iff {a b : UInt32} : ge a b = true ↔ gt a b = true ∨ a = b := by
  have hsub : a = b ↔ (a - b).toNat = 0 := by
    rw [← UInt32.toNat_inj, UInt32.toNat_sub]
    have := a.toNat_lt
    have := b.toNat_lt
    omega
  rw [ge, gt, decide_eq_true_eq, decide_eq_true_eq, hsub]
  omega

/-- A number is not ahead of one that it is not behind. -/
theorem gt_eq_false_of_ge {a b : UInt32} (h : ge a b = true) : gt b a = false := by
  rw [ge, decide_eq_true_eq, UInt32.toNat_sub] at h
  rw [gt, decide_eq_false_iff_not, UInt32.toNat_sub]
  have := a.toNat_lt
  have := b.toNat_lt
  omega

theorem gt_last (e : UInt32) {d : ℕ} (hd : d < 2 ^ 32) : gt e (back e d) = decide (0 < d ∧ d < 2 ^ 31) := by
  have h := sub_back e (a := 0) (by omega) hd
  rw [back_zero] at h
  rw [gt, h, decide_eq_decide]
  simp

end Serial
