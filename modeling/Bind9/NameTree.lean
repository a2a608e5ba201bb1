import Bind9.NameWire

/-! # The tree of names

What `dns_name_fullcompare` says about the places of two names in the tree: the number of labels in common is the length
of the longest common beginning of the order keys, and one name is a subdomain of another iff the labels of the other one
are a suffix, up to case (`issubdomain_iff`). -/

namespace Bind9

/-! ### The common beginning of two lists -/

section CommonStart

variable {α : Type} [DecidableEq α]

theorem commonStart_comm : ∀ as bs : List α, commonStart as bs = commonStart bs as
  | [], [] => rfl
  | [], _ :: _ => rfl
  | _ :: _, [] => rfl
  | a :: as, b :: bs => by
    rw [commonStart, commonStart, commonStart_comm as bs]
    simp only [eq_comm]
theorem commonStart_eq_left : ∀ as bs : List α, commonStart as bs = as.length ↔ as <+: bs
  | [], bs => by simp [commonStart]
  | a :: as, [] => by simp [commonStart]
  | a :: as, b :: bs => by
    rw [commonStart, List.cons_prefix_cons, ← commonStart_eq_left as bs]
    split
    · next h => simp [h]
    · next h => simp [h]
theorem commonStart_eq_right (as bs : List α) : commonStart as bs = bs.length ↔ bs <+: as := by
  rw [commonStart_comm, commonStart_eq_left]

end CommonStart

/-! ### Names above and below -/

namespace Name

theorem orderKey_length (a : Name) : a.orderKey.length = a.countlabels := by
  simp [orderKey, countlabels]

theorem issubdomain_iff_key (a b : Name) : a.issubdomain b = true ↔ b.orderKey <+: a.orderKey := by
  have hle := commonStart_le a.orderKey b.orderKey
  rw [orderKey_length, orderKey_length] at hle
  rw [issubdomain, (fullcompare_common a b).2, ← commonStart_eq_right, orderKey_length, relation]
  split_ifs <;> simp <;> omega

theorem orderKey_eq_reverse (a : Name) : a.orderKey = a.lower.labels.reverse := by
  rw [orderKey, lower, List.map_reverse]

theorem issubdomain_iff (a b : Name) : a.issubdomain b = true ↔ b.lower.labels <:+ a.lower.labels := by
  rw [issubdomain_iff_key, orderKey_eq_reverse, orderKey_eq_reverse, List.reverse_prefix]

end Name

end Bind9
