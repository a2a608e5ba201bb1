import Mathlib.Data.List.Basic
import Mathlib.Data.List.Forall2
import Mathlib.Data.List.Sort
import Mathlib.Tactic

/-! # Sorted lists that are walked in lock step

A predicate that holds up to a point of a list splits it (`takeWhile_eq_filter`).  Two lists that are sorted by a
comparison agree place by place iff they hold each value equally often (`forall₂_iff_count`), where values that
compare equal count as one. -/

namespace SortedLists

open List

/-! ### A second comparison under the first -/

section Then

variable {α : Type} {first : α → α → Ordering} {second : α → α → α → Ordering}

/-- A comparison and, where it is undecided, another one that may depend on what the first one looks at. -/
def thenCompare (first : α → α → Ordering) (second : α → α → α → Ordering) (a b : α) : Ordering :=
  (first a b).then (second a a b)

theorem transCmp_thenCompare [Std.TransCmp first] (hs : ∀ a, Std.TransCmp (second a))
    (hc : ∀ a b, first a b = .eq → second a = second b) : Std.TransCmp (thenCompare first second) where
  eq_swap := by
    intro a b
    have hswap : first a b = (first b a).swap := Std.OrientedCmp.eq_swap
    unfold thenCompare
    rw [hswap]
    cases h : first b a with
    | lt => rfl
    | gt => rfl
    | eq =>
      have := hs a
      rw [hc b a h, Ordering.eq_then]
      show second a a b = (second a b a).swap
      exact Std.OrientedCmp.eq_swap
  isLE_trans := by
    intro a b c hab hbc
    unfold thenCompare at *
    cases h1 : first a b with
    | gt => simp [h1] at hab
    | lt =>
      have hle : (first b c).isLE := by
        cases h2 : first b c with
        | gt => simp [h2] at hbc
        | lt => rfl
        | eq => rfl
      rw [Std.TransCmp.lt_of_lt_of_isLE h1 hle]
      rfl
    | eq =>
      rw [Std.TransCmp.congr_left h1]
      cases h2 : first b c with
      | gt => simp [h2] at hbc
      | lt => rfl
      | eq =>
        have := hs a
        rw [h1, Ordering.eq_then] at hab
        rw [h2, Ordering.eq_then, ← hc a b h1] at hbc
        show (second a a c).isLE = true
        exact Std.TransCmp.isLE_trans hab hbc

theorem transCmp_comp {β : Type} {cmp : β → β → Ordering} (h : Std.TransCmp cmp) (f : α → β) :
    Std.TransCmp (fun a b => cmp (f a) (f b)) where
  eq_swap := h.eq_swap
  isLE_trans := h.isLE_trans

end Then

/-! ### Prefixes -/

section Prefix

variable {α : Type} {p : α → Bool} {l : List α}

theorem takeWhile_eq_filter (h : l.Pairwise (fun a b => p b = true → p a = true)) : l.takeWhile p = l.filter p := by
  induction l with
  | nil => rfl
  | cons a l ih =>
    obtain ⟨ha, hl⟩ := pairwise_cons.1 h
    by_cases hp : p a = true
    · rw [takeWhile_cons_of_pos hp, filter_cons_of_pos hp, ih hl]
    · rw [takeWhile_cons_of_neg hp, filter_cons_of_neg hp, eq_comm, filter_eq_nil_iff]
      exact fun b hb hpb => hp (ha b hb hpb)

theorem dropWhile_eq_filter (h : l.Pairwise (fun a b => p b = true → p a = true)) :
    l.dropWhile p = l.filter (fun a => !p a) := by
  induction l with
  | nil => rfl
  | cons a l ih =>
    obtain ⟨ha, hl⟩ := pairwise_cons.1 h
    by_cases hp : p a = true
    · rw [dropWhile_cons_of_pos hp, filter_cons_of_neg (by simp [hp]), ih hl]
    rw [dropWhile_cons_of_neg hp, eq_comm, filter_eq_self]
    intro b hb
    obtain rfl | hb := mem_cons.1 hb
    · simpa using hp
    · simpa using fun hpb => hp (ha b hb hpb)

end Prefix

/-! ### Counting -/

section Count

variable {α : Type} (cmp : α → α → Ordering)

/-- How often a list holds a value. -/
def count (x : α) (l : List α) : ℕ := l.countP (fun a => cmp x a == .eq)

/-- The two lists hold every value equally often. -/
def SameCounts (as bs : List α) : Prop := ∀ x, count cmp x as = count cmp x bs

variable {cmp} {as bs : List α}

theorem SameCounts.perm_left {cs : List α} (h : as.Perm cs) : SameCounts cmp as bs ↔ SameCounts cmp cs bs := by
  simp only [SameCounts, count, h.countP_eq]

theorem SameCounts.perm_right {cs : List α} (h : bs.Perm cs) : SameCounts cmp as bs ↔ SameCounts cmp as cs := by
  simp only [SameCounts, count, h.countP_eq]

theorem count_pos_iff {x : α} : 0 < count cmp x as ↔ ∃ a ∈ as, cmp x a = .eq := by
  simp [count, countP_pos_iff]

variable [Std.TransCmp cmp]

theorem sameCounts_of_forall₂ (h : Forall₂ (fun a b => cmp a b = .eq) as bs) : SameCounts cmp as bs := by
  intro x
  induction h with
  | nil => rfl
  | @cons a b as bs hab _ ih =>
    unfold count at ih ⊢
    rw [countP_cons, countP_cons, ih, Std.TransCmp.congr_right hab]

/-- Nothing in a sorted list compares equal to what is less than its head. -/
theorem count_eq_zero {x b : α} (hb : (b :: bs).Pairwise (fun a b => (cmp a b).isLE = true)) (hx : cmp x b = .lt) :
    count cmp x (b :: bs) = 0 := by
  rw [count, countP_eq_zero]
  intro c hc
  have hlt : cmp x c = .lt := by
    obtain rfl | hc := mem_cons.1 hc
    · exact hx
    · exact Std.TransCmp.lt_of_lt_of_isLE hx ((pairwise_cons.1 hb).1 c hc)
  simp [hlt]

theorem count_cons_pos (a : α) (as : List α) : 0 < count cmp a (a :: as) :=
  count_pos_iff.2 ⟨a, by simp, Std.ReflCmp.compare_self⟩

/-- **Lock step.**  Sorted lists agree place by place iff they hold every value equally often. -/
theorem forall₂_iff_count : ∀ {as bs : List α}, as.Pairwise (fun a b => (cmp a b).isLE = true) →
    bs.Pairwise (fun a b => (cmp a b).isLE = true) →
    (Forall₂ (fun a b => cmp a b = .eq) as bs ↔ SameCounts cmp as bs)
  | [], [], _, _ => by simp [SameCounts]
  | [], b :: bs, _, _ => by
    refine iff_of_false (by simp) (fun h => ?_)
    have hb := @count_cons_pos _ cmp _ b bs
    rw [← h b] at hb
    exact absurd hb (by simp [count])
  | a :: as, [], _, _ => by
    refine iff_of_false (by simp) (fun h => ?_)
    have ha := @count_cons_pos _ cmp _ a as
    rw [h a] at ha
    exact absurd ha (by simp [count])
  | a :: as, b :: bs, ha, hb => by
    have ih := forall₂_iff_count (pairwise_cons.1 ha).2 (pairwise_cons.1 hb).2
    refine ⟨sameCounts_of_forall₂, fun h => ?_⟩
    have hab : cmp a b = .eq := by
      cases hc : cmp a b with
      | eq => rfl
      | lt =>
        have hpos := @count_cons_pos _ cmp _ a as
        rw [h a, count_eq_zero hb hc] at hpos
        omega
      | gt =>
        have hpos := @count_cons_pos _ cmp _ b bs
        rw [← h b, count_eq_zero ha (Std.OrientedCmp.lt_of_gt hc)] at hpos
        omega
    refine Forall₂.cons hab (ih.2 (fun x => ?_))
    have hx := h x
    unfold count at hx ⊢
    rw [countP_cons, countP_cons, Std.TransCmp.congr_right hab] at hx
    omega

/-- Lists that hold every value equally often have the same members. -/
theorem SameCounts.exists_mem (h : SameCounts cmp as bs) {a : α} (ha : a ∈ as) : ∃ b ∈ bs, cmp a b = .eq := by
  rw [← count_pos_iff, ← h a, count_pos_iff]
  exact ⟨a, ha, Std.ReflCmp.compare_self⟩

end Count

end SortedLists
