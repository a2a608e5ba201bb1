import Mathlib.Data.List.Basic
import Mathlib.Data.List.Sort
import Mathlib.Tactic

/-! # Lexicographic order and sorted arrays without duplicates

Two facts about comparison functions that return an `Ordering`.  Lists of one length compare piece by piece
(`compare_append`).  And a list that is sorted by a key and then freed of the entries that compare equal to
the one before them has its keys in strictly increasing order, with nothing lost: the result depends on the
set of the keys only (`keys_skipDuplicates_eq`). -/

namespace LexOrder

open List

/-! ### Appended lists -/

section Append

variable {α : Type} [Ord α]

theorem compare_append {x y : List α} : ∀ {a b : List α}, a.length = b.length →
    compare (a ++ x) (b ++ y) = (compare a b).then (compare x y)
  | [], [], _ => rfl
  | c :: a, d :: b, h => by
    have ih := compare_append (x := x) (y := y) (a := a) (b := b) (by simpa using h)
    simp only [cons_append, List.compare_cons_cons, ih, Ordering.then_assoc]

end Append

/-! ### Sorted arrays -/

section Sorted

variable {α β : Type} [Ord β] [Std.TransOrd β] [Std.LawfulEqOrd β] {cmp : α → α → Ordering} {key : α → β}

/-- The entries that do not compare equal to the entry before them; `prev` is the entry before the list. -/
def skipFrom (cmp : α → α → Ordering) (prev : α) : List α → List α
  | [] => []
  | a :: as => if cmp a prev = .eq then skipFrom cmp a as else a :: skipFrom cmp a as

/-- The loop over a sorted array that skips duplicates. -/
def skipDuplicates (cmp : α → α → Ordering) : List α → List α
  | [] => []
  | a :: as => a :: skipFrom cmp a as

theorem skipFrom_keys : ∀ (as : List α) (prev : α),
    (∀ a ∈ prev :: as, ∀ b ∈ prev :: as, cmp a b = compare (key a) (key b)) →
    (prev :: as).Pairwise (fun a b => cmp a b ≠ .gt) →
    (key prev :: (skipFrom cmp prev as).map key).Pairwise (fun x y => compare x y = .lt) ∧
      ∀ x, x ∈ key prev :: (skipFrom cmp prev as).map key ↔ x ∈ (prev :: as).map key
  | [], prev, _, _ => by simp [skipFrom]
  | a :: as, prev, hk, hs => by
    obtain ⟨hp, hs'⟩ := pairwise_cons.1 hs
    obtain ⟨ih, hmem⟩ := skipFrom_keys as a (fun b hb c hc => hk b (by simp_all) c (by simp_all)) hs'
    have hle := hp a (by simp)
    rw [hk prev (by simp) a (by simp)] at hle
    have hap : cmp a prev = compare (key a) (key prev) := hk a (by simp) prev (by simp)
    unfold skipFrom
    split
    · next heq =>
        have hkey : key a = key prev := Std.LawfulEqOrd.eq_of_compare (by rw [← hap, heq])
        rw [hkey] at ih hmem
        refine ⟨ih, fun x => ?_⟩
        rw [hmem x]
        simp [hkey]
    next hne =>
      have hlt : compare (key prev) (key a) = .lt := by
        cases hc : compare (key prev) (key a) with
        | lt => rfl
        | gt => exact absurd hc hle
        | eq =>
          have := Std.LawfulEqOrd.eq_of_compare hc
          rw [hap, this, Std.ReflOrd.compare_self] at hne
          exact absurd rfl hne
      refine ⟨pairwise_cons.2 ⟨fun x hx => ?_, ih⟩, fun x => ?_⟩
      · rw [map_cons] at hx
        obtain rfl | hx := mem_cons.1 hx
        · exact hlt
        · exact Std.TransCmp.lt_trans hlt ((pairwise_cons.1 ih).1 x hx)
      · rw [map_cons, map_cons, mem_cons, hmem x, mem_cons]

/-- The keys that are left are in strictly increasing order. -/
theorem skipDuplicates_sorted {as : List α} (hk : ∀ a ∈ as, ∀ b ∈ as, cmp a b = compare (key a) (key b))
    (hs : as.Pairwise (fun a b => cmp a b ≠ .gt)) :
    ((skipDuplicates cmp as).map key).Pairwise (fun x y => compare x y = .lt) := by
  cases as with
  | nil => exact Pairwise.nil
  | cons a as => exact (skipFrom_keys as a hk hs).1

theorem mem_keys_skipDuplicates {as : List α} (hk : ∀ a ∈ as, ∀ b ∈ as, cmp a b = compare (key a) (key b))
    (hs : as.Pairwise (fun a b => cmp a b ≠ .gt)) (x : β) : x ∈ (skipDuplicates cmp as).map key ↔ x ∈ as.map key := by
  cases as with
  | nil => rfl
  | cons a as => exact (skipFrom_keys as a hk hs).2 x

omit [Std.LawfulEqOrd β] in
theorem exists_sorted (key : α → β) (as : List α) :
    ∃ bs : List α, bs.Perm as ∧ bs.Pairwise (fun a b => compare (key a) (key b) ≠ .gt) := by
  let le : α → α → Bool := fun a b => (compare (key a) (key b)).isLE
  have htrans : ∀ a b c, le a b = true → le b c = true → le a c = true := fun _ _ _ => Std.TransCmp.isLE_trans
  have htotal : ∀ a b, (le a b || le b a) = true := by
    intro a b
    simp only [le, Std.OrientedOrd.eq_swap (a := key b) (b := key a)]
    cases compare (key a) (key b) <;> rfl
  refine ⟨as.mergeSort le, mergeSort_perm as le, (pairwise_mergeSort htrans htotal as).imp (fun h => ?_)⟩
  exact Ordering.isLE_iff_ne_gt.1 h

/-- Two strictly increasing lists with the same members are equal. -/
theorem eq_of_sorted_of_mem : ∀ {xs ys : List β}, xs.Pairwise (fun x y => compare x y = .lt) →
    ys.Pairwise (fun x y => compare x y = .lt) → (∀ x, x ∈ xs ↔ x ∈ ys) → xs = ys
  | [], [], _, _, _ => rfl
  | [], y :: ys, _, _, h => absurd ((h y).2 (by simp)) (by simp)
  | x :: xs, [], _, _, h => absurd ((h x).1 (by simp)) (by simp)
  | x :: xs, y :: ys, hx, hy, h => by
    obtain ⟨hx1, hx2⟩ := pairwise_cons.1 hx
    obtain ⟨hy1, hy2⟩ := pairwise_cons.1 hy
    have irrefl : ∀ z : β, compare z z ≠ .lt := fun z hz => by
      rw [Std.ReflOrd.compare_self] at hz
      cases hz
    have hxy : x = y := by
      obtain hxy | hxys := mem_cons.1 ((h x).1 (by simp))
      · exact hxy
      obtain hyx | hyxs := mem_cons.1 ((h y).2 (by simp))
      · exact hyx.symm
      · exact absurd (Std.TransCmp.lt_trans (hx1 y hyxs) (hy1 x hxys)) (irrefl x)
    subst hxy
    refine congrArg (x :: ·) (eq_of_sorted_of_mem hx2 hy2 (fun z => ?_))
    constructor
    · intro hz
      obtain rfl | hz' := mem_cons.1 ((h z).1 (by simp [hz]))
      · exact absurd (hx1 z hz) (irrefl z)
      · exact hz'
    · intro hz
      obtain rfl | hz' := mem_cons.1 ((h z).2 (by simp [hz]))
      · exact absurd (hy1 z hz) (irrefl z)
      · exact hz'

/-- **Canonical form.**  What is left of a sorted array depends on the set of the keys only. -/
theorem keys_skipDuplicates_eq {as bs : List α} (hmem : ∀ x, x ∈ as.map key ↔ x ∈ bs.map key)
    (hka : ∀ a ∈ as, ∀ b ∈ as, cmp a b = compare (key a) (key b))
    (hkb : ∀ a ∈ bs, ∀ b ∈ bs, cmp a b = compare (key a) (key b))
    (hsa : as.Pairwise (fun a b => cmp a b ≠ .gt)) (hsb : bs.Pairwise (fun a b => cmp a b ≠ .gt)) :
    (skipDuplicates cmp as).map key = (skipDuplicates cmp bs).map key := by
  apply eq_of_sorted_of_mem (skipDuplicates_sorted hka hsa) (skipDuplicates_sorted hkb hsb)
  intro x
  rw [mem_keys_skipDuplicates hka hsa, mem_keys_skipDuplicates hkb hsb]
  exact hmem x

end Sorted

end LexOrder
