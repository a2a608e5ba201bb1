import Mathlib.Data.List.Basic
import Mathlib.Tactic

/-! # A ring of values

A sorted list read as a ring: behind the last value comes the first one.  Between a value of the ring and the next one
there is no value of the ring (`not_mem_of_between`), however short the ring is. -/

namespace CyclicOrder

open List

variable {α : Type} [Ord α] [Std.TransOrd α]

/-- Behind `lo` and before `hi` on the ring; if `hi` is not the greater one, the way goes over the end. -/
def Between (lo hi x : α) : Prop :=
  if compare lo hi = .lt then compare x lo = .gt ∧ compare x hi = .lt else compare x lo = .gt ∨ compare x hi = .lt

def Increasing (l : List α) : Prop := l.Pairwise (fun a b => compare a b = .lt)

/-- The value behind `n` in the ring `pre ++ n :: post`. -/
def next (pre : List α) (n : α) (post : List α) : α := (post ++ (pre ++ [n])).headD n

variable {pre post : List α} {n x : α}

theorem ne_of_gt {a b : α} (h : compare a b = .gt) : a ≠ b := by
  rintro rfl
  rw [Std.ReflOrd.compare_self] at h
  cases h

theorem ne_of_lt {a b : α} (h : compare a b = .lt) : a ≠ b := by
  rintro rfl
  rw [Std.ReflOrd.compare_self] at h
  cases h

theorem not_mem_of_between (hs : Increasing (pre ++ n :: post)) (hb : Between n (next pre n post) x) :
    x ∉ pre ++ n :: post := by
  obtain ⟨hpre, hrest, hcross⟩ := pairwise_append.1 hs
  obtain ⟨hpost, hposts⟩ := pairwise_cons.1 hrest
  -- what is before `n` in the list is less than `n`
  have hbefore : compare x n = .gt → ∀ k ∈ pre, x ≠ k := fun hx k hk =>
    ne_of_gt (Std.TransCmp.gt_trans hx (Std.OrientedCmp.gt_of_lt (hcross k hk n (by simp))))
  cases post with
  | cons p post =>
    have hnp := hpost p (by simp)
    rw [next, cons_append, headD_cons, Between, if_pos hnp] at hb
    obtain ⟨hn, hp⟩ := hb
    simp only [mem_append, mem_cons, not_or]
    refine ⟨fun hx => hbefore hn x hx rfl, ne_of_gt hn, ne_of_lt hp, fun hx => ?_⟩
    exact ne_of_lt (Std.TransCmp.lt_trans hp ((pairwise_cons.1 hposts).1 x hx)) rfl
  | nil =>
    cases pre with
    | nil =>
      rw [next, nil_append, nil_append, headD_cons, Between, Std.ReflOrd.compare_self,
        if_neg (by simp)] at hb
      simp only [nil_append, mem_singleton]
      obtain h | h := hb
      · exact ne_of_gt h
      · exact ne_of_lt h
    | cons p pre =>
      have hpn : compare p n = .lt := hcross p (by simp) n (by simp)
      rw [next, nil_append, cons_append, headD_cons, Between,
        if_neg (by rw [Std.OrientedCmp.gt_of_lt hpn]; simp)] at hb
      simp only [cons_append, mem_cons, mem_append, not_mem_nil, or_false, not_or]
      obtain h | h := hb
      · exact ⟨hbefore h p (by simp), fun hx => hbefore h x (by simp [hx]) rfl, ne_of_gt h⟩
      · refine ⟨ne_of_lt h, fun hx => ?_, ne_of_lt (Std.TransCmp.lt_trans h hpn)⟩
        exact ne_of_lt (Std.TransCmp.lt_trans h ((pairwise_cons.1 hpre).1 x hx)) rfl

end CyclicOrder
