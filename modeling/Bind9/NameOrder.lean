import Bind9.Name

/-! # The order of names

`dns_name_fullcompare`: the DNSSEC order of two names, the number of labels they have in common,
counted from the root, and how they are related in the hierarchy. -/

namespace Bind9

open List

inductive NameReln where
  | none
  | contains
  | subdomain
  | equal
  | commonancestor
deriving DecidableEq, Repr

theorem compare_uint8 (a b : UInt8) : compare a b = compare a.toNat b.toNat := by
  change compareOfLessAndEq a b = compareOfLessAndEq a.toNat b.toNat
  simp only [compareOfLessAndEq, UInt8.lt_iff_toNat_lt, UInt8.toNat_inj]

namespace Name

/-- The comparison of one pair of labels: the difference of the first bytes that differ, or else
of the lengths. -/
def labelDiff : Label → Label → ℤ
  | [], [] => 0
  | [], l2 => -(l2.length : ℤ)
  | l1, [] => l1.length
  | c1 :: l1, c2 :: l2 =>
    if maptolower c1 ≠ maptolower c2 then
      ((maptolower c1).toNat : ℤ) - (maptolower c2).toNat
    else labelDiff l1 l2

/-- The loop of `dns_name_fullcompare` over the labels, from the last one on: the order and the
labels in common; `ldiff` is the answer when one of the names ends. -/
def compareFrom (ldiff : ℤ) : List Label → List Label → ℕ → Bool × ℤ × ℕ
  | l1 :: t1, l2 :: t2, nlabels =>
    if labelDiff l1 l2 ≠ 0 then (false, labelDiff l1 l2, nlabels)
    else compareFrom ldiff t1 t2 (nlabels + 1)
  | _, _, nlabels => (true, ldiff, nlabels)

/-- `dns_name_fullcompare`: relation, order, common labels. -/
def fullcompare (a b : Name) : NameReln × ℤ × ℕ :=
  let ldiff : ℤ := (a.countlabels : ℤ) - b.countlabels
  match compareFrom ldiff a.labels.reverse b.labels.reverse 0 with
  | (true, order, nlabels) =>
    (if ldiff < 0 then .contains else if 0 < ldiff then .subdomain else .equal, order, nlabels)
  | (false, order, nlabels) => (if 0 < nlabels then .commonancestor else .none, order, nlabels)

def issubdomain (a b : Name) : Bool :=
  match (a.fullcompare b).1 with
  | .subdomain | .equal => true
  | _ => false

/-- `dns_name_split`: what stands in front of the last `suffixlabels` labels. -/
def splitHead (n : Name) (suffixlabels : ℕ) : Name :=
  n.getlabelsequence 0 (n.countlabels - suffixlabels)

/-- `dns_name_split`: the last `suffixlabels` labels. -/
def splitTail (n : Name) (suffixlabels : ℕ) : Name :=
  n.getlabelsequence (n.countlabels - suffixlabels) suffixlabels

/-! ### The order -/

protected def compare (a b : Name) : ℤ := (a.fullcompare b).2.1

/-- The lower-case labels from the root on: the DNSSEC order of names is their lexicographic order. -/
def orderKey (n : Name) : List Bytes := n.labels.reverse.map Label.lower

theorem compare_sub_zero (a b : ℕ) : compare ((a : ℤ) - b) 0 = compare a b := by
  obtain h | h | h := lt_trichotomy a b
  · rw [compare_lt_iff_lt.2 h, compare_lt_iff_lt.2 (by omega)]
  · rw [compare_eq_iff_eq.2 h, compare_eq_iff_eq.2 (by omega)]
  · rw [compare_gt_iff_gt.2 h, compare_gt_iff_gt.2 (by omega)]

theorem sign_labelDiff : ∀ l1 l2 : Label, compare (labelDiff l1 l2) 0 = compare l1.lower l2.lower
  | [], [] => rfl
  | [], c :: l => by
    rw [labelDiff, compare_lt_iff_lt.2 (by simp; omega)]
    · rfl
    · simp
  | c :: l, [] => by
    rw [labelDiff, compare_gt_iff_gt.2 (by simp)]
    · rfl
    · simp
  | c1 :: l1, c2 :: l2 => by
    have ih : _ = compare (Label.lower l1) (Label.lower l2) := sign_labelDiff l1 l2
    rw [labelDiff, Label.lower, Label.lower, map_cons, map_cons, List.compare_cons_cons, compare_uint8]
    split
    next h =>
      rw [compare_sub_zero]
      have hne : compare (maptolower c1).toNat (maptolower c2).toNat ≠ .eq :=
        fun he => h (UInt8.toNat_inj.1 (compare_eq_iff_eq.1 he))
      cases ho : compare (maptolower c1).toNat (maptolower c2).toNat with
      | eq => exact absurd ho hne
      | lt => rfl
      | gt => rfl
    next h =>
      rw [not_not.1 h, compare_eq_iff_eq.2 rfl, Ordering.eq_then]
      exact ih

theorem sign_compareFrom (ldiff : ℤ) : ∀ (t1 t2 : List Label) (n : ℕ), ldiff = (t1.length : ℤ) - t2.length →
    compare (compareFrom ldiff t1 t2 n).2.1 0 = compare (t1.map Label.lower) (t2.map Label.lower)
  | [], [], _, h => by
    rw [compareFrom, h]
    · rfl
    · simp
  | [], l :: t, n, h => by
    rw [compareFrom, compare_lt_iff_lt.2 (by rw [h]; simp; omega)]
    · rfl
    · simp
  | l :: t, [], n, h => by
    rw [compareFrom, compare_gt_iff_gt.2 (by rw [h]; simp)]
    · rfl
    · simp
  | l1 :: t1, l2 :: t2, n, h => by
    have ih := sign_compareFrom ldiff t1 t2 (n + 1) (by rw [h]; simp)
    rw [compareFrom, map_cons, map_cons, List.compare_cons_cons, ← sign_labelDiff]
    split
    next hd =>
      cases ho : compare (labelDiff l1 l2) 0 with
      | eq => exact absurd (compare_eq_iff_eq.1 ho) hd
      | lt => rfl
      | gt => rfl
    next hd =>
      rw [not_not.1 hd, compare_eq_iff_eq.2 rfl, Ordering.eq_then]
      exact ih

theorem sign_compare (a b : Name) : compare (a.compare b) 0 = compare a.orderKey b.orderKey := by
  have h := sign_compareFrom ((a.countlabels : ℤ) - b.countlabels) a.labels.reverse b.labels.reverse 0
    (by simp [countlabels])
  rw [← orderKey, ← orderKey] at h
  rw [← h, Name.compare, fullcompare]
  congr 1
  split
  next heq => rw [heq]
  next heq => rw [heq]
  
theorem orderKey_inj {a b : Name} : a.orderKey = b.orderKey ↔ a.lower = b.lower := by
  simp only [orderKey, map_reverse, reverse_inj, lower, Name.mk.injEq]

end Name

end Bind9
