import Mathlib.Data.List.Basic
import Mathlib.Data.List.Perm.Basic
import Mathlib.Tactic

/-! # The merge of two sorted lists

`join` walks two lists that are sorted by the same order and writes something for every element: one thing for an
element that only one list has, another for a pair of equal elements.  The walk never looks back, and yet its output
is, up to the order of the parts, what a search for the partner of every element gives (`join_perm`). -/

namespace MergeJoin

open List

section Join

variable {α γ : Type} (cmp : α → α → Ordering) (left right : α → List γ) (both : α → α → List γ)

/-- The walk. -/
def join : List α → List α → List γ
  | [], ys => ys.flatMap right
  | x :: xs, [] => left x ++ join xs []
  | x :: xs, y :: ys =>
    match cmp x y with
    | .lt => left x ++ join xs (y :: ys)
    | .gt => right y ++ join (x :: xs) ys
    | .eq => both x y ++ join xs ys
termination_by xs ys => xs.length + ys.length

variable {x y : α} {xs ys : List α}

variable {cmp left right both} in
theorem join_of_lt (h : cmp x y = .lt) :
    join cmp left right both (x :: xs) (y :: ys) = left x ++ join cmp left right both xs (y :: ys) := by
  rw [join]
  simp only [h]

variable {cmp left right both} in
theorem join_of_gt (h : cmp x y = .gt) :
    join cmp left right both (x :: xs) (y :: ys) = right y ++ join cmp left right both (x :: xs) ys := by
  rw [join]
  simp only [h]

variable {cmp left right both} in
theorem join_of_eq (h : cmp x y = .eq) :
    join cmp left right both (x :: xs) (y :: ys) = both x y ++ join cmp left right both xs ys := by
  rw [join]
  simp only [h]

/-- The element of `ys` that is equal to `x`. -/
def partner (ys : List α) (x : α) : Option α := ys.find? (fun y => cmp x y == .eq)

/-- What an element gives, alone or with its partner. -/
def part (one : α → List γ) (pair : α → α → List γ) (ys : List α) (x : α) : List γ :=
  (partner cmp ys x).elim (one x) (pair x)

variable {cmp}

variable {one : α → List γ} {pair : α → α → List γ}

theorem part_cons_of_ne {ys : List α} (h : cmp x y ≠ .eq) : part cmp one pair (y :: ys) x = part cmp one pair ys x := by
  have hb : (cmp x y == .eq) = false := beq_eq_false_iff_ne.2 h
  simp only [part, partner, find?_cons, hb]

theorem part_cons_of_eq {ys : List α} (h : cmp x y = .eq) : part cmp one pair (y :: ys) x = pair x y := by
  have hb : (cmp x y == .eq) = true := beq_iff_eq.2 h
  simp only [part, partner, find?_cons, hb, Option.elim_some]

theorem part_of_none {x : α} {ys : List α} (h : ∀ y ∈ ys, cmp x y ≠ .eq) : part cmp one pair ys x = one x := by
  have hn : partner cmp ys x = none := by
    rw [partner, find?_eq_none]
    intro y hy
    simpa using h y hy
  rw [part, hn, Option.elim_none]

/-- An element that the list grows by changes nothing for elements that are not equal to it. -/
theorem flatMap_part_cons {y : α} (h : ∀ x ∈ xs, cmp x y ≠ .eq) :
    xs.flatMap (part cmp one pair (y :: ys)) = xs.flatMap (part cmp one pair ys) :=
  flatMap_congr (fun x hx => part_cons_of_ne (h x hx))

variable [Std.TransCmp cmp]

theorem lt_all_of_lt {ys : List α} (hy : (y :: ys).Pairwise (fun a b => cmp a b = .lt)) (h : cmp x y = .lt) :
    ∀ z ∈ y :: ys, cmp x z = .lt := by
  intro z hz
  obtain rfl | hz := mem_cons.1 hz
  · exact h
  · exact Std.TransCmp.lt_trans h ((pairwise_cons.1 hy).1 z hz)

theorem ne_eq_of_lt {x z : α} (h : cmp x z = .lt) : cmp x z ≠ .eq ∧ cmp z x ≠ .eq := by
  refine ⟨by simp [h], fun he => ?_⟩
  rw [Std.OrientedCmp.eq_comm.1 he] at h
  cases h

/-- The walk writes, up to order, what every element gives with its partner; `bl` and `br` are the shares that the
two elements of a pair have in what the pair writes. -/
theorem join_perm (left right : α → List γ) (both bl br : α → α → List γ) : ∀ {xs ys : List α}, xs.Pairwise (fun a b => cmp a b = .lt) →
    ys.Pairwise (fun a b => cmp a b = .lt) →
    (∀ x ∈ xs, ∀ y ∈ ys, cmp x y = .eq → (both x y).Perm (bl x y ++ br y x)) →
    (join cmp left right both xs ys).Perm (xs.flatMap (part cmp left bl ys) ++ ys.flatMap (part cmp right br xs))
  | [], ys, _, _, _ => by
    have h : ys.flatMap (part cmp right br []) = ys.flatMap right := flatMap_congr (fun y _ => rfl)
    rw [join, h]
    exact .refl _
  | x :: xs, [], hx, hy, hb => by
    have ih := join_perm left right both bl br (pairwise_cons.1 hx).2 hy (fun _ _ _ h => absurd h not_mem_nil)
    rw [join, flatMap_nil, append_nil, flatMap_cons]
    rw [flatMap_nil, append_nil] at ih
    exact ih.append_left (left x)
  | x :: xs, y :: ys, hx, hy, hb => by
    have hx' := (pairwise_cons.1 hx).2
    have hy' := (pairwise_cons.1 hy).2
    cases hc : cmp x y with
    | lt =>
      -- nothing in the second list is as small as `x`
      have hlt := lt_all_of_lt hy hc
      have ih := join_perm left right both bl br hx' hy (fun a ha b hb' => hb a (mem_cons_of_mem x ha) b hb')
      rw [join_of_lt hc, flatMap_cons, part_of_none (fun z hz => (ne_eq_of_lt (hlt z hz)).1),
        flatMap_part_cons (fun z hz => (ne_eq_of_lt (hlt z hz)).2), append_assoc]
      exact ih.append_left (left x)
    | gt =>
      have hlt := lt_all_of_lt hx (Std.OrientedCmp.gt_iff_lt.1 hc)
      have ih := join_perm left right both bl br hx hy' (fun a ha b hb' => hb a ha b (mem_cons_of_mem y hb'))
      rw [join_of_gt hc, flatMap_cons (x := y), part_of_none (fun z hz => (ne_eq_of_lt (hlt z hz)).1),
        flatMap_part_cons (fun z hz => (ne_eq_of_lt (hlt z hz)).2)]
      exact (ih.append_left (right y)).trans (perm_append_comm_assoc _ _ _)
    | eq =>
      -- the rest of both lists is above the pair
      have hxlt : ∀ z ∈ xs, cmp y z = .lt := fun z hz =>
        Std.TransCmp.lt_of_eq_of_lt (Std.OrientedCmp.eq_comm.1 hc) ((pairwise_cons.1 hx).1 z hz)
      have hylt : ∀ z ∈ ys, cmp x z = .lt := fun z hz =>
        Std.TransCmp.lt_of_eq_of_lt hc ((pairwise_cons.1 hy).1 z hz)
      have ih := join_perm left right both bl br hx' hy' (fun a ha b hb' =>
        hb a (mem_cons_of_mem x ha) b (mem_cons_of_mem y hb'))
      rw [join_of_eq hc, flatMap_cons, flatMap_cons, part_cons_of_eq hc, part_cons_of_eq (Std.OrientedCmp.eq_comm.1 hc),
        flatMap_part_cons (fun z hz => (ne_eq_of_lt (hxlt z hz)).2),
        flatMap_part_cons (fun z hz => (ne_eq_of_lt (hylt z hz)).2)]
      have hpair := hb x mem_cons_self y mem_cons_self hc
      refine (hpair.append ih).trans ?_
      rw [append_assoc, append_assoc]
      exact (perm_append_comm_assoc _ _ _).append_left _
termination_by xs ys => xs.length + ys.length

/-! ### Elements that stay unless they have a certain partner -/

omit [Std.TransCmp cmp] in
theorem partner_eq_some {ys : List α} (h : partner cmp ys x = some y) : y ∈ ys ∧ cmp x y = .eq :=
  ⟨mem_of_find?_eq_some h, by simpa using find?_some h⟩

theorem partner_unique {x y z : α} {ys : List α} (hy : ys.Pairwise (fun a b => cmp a b = .lt)) (hmy : y ∈ ys)
    (hmz : z ∈ ys) (h : cmp x y = .eq) (h' : cmp x z = .eq) : y = z := by
  have heq : cmp y z = .eq := Std.TransCmp.eq_trans (Std.OrientedCmp.eq_comm.1 h) h'
  have hall := Pairwise.forall_of_forall_of_flip (R := fun a b => cmp a b = .eq → a = b) (fun _ _ _ => rfl)
    (hy.imp (fun hlt he => absurd he (ne_eq_of_lt hlt).1)) (hy.imp (fun hlt he => absurd he (ne_eq_of_lt hlt).2))
  exact hall hmy hmz heq

theorem flatMap_part_filter (keep : α → α → Bool) (hy : ys.Pairwise (fun a b => cmp a b = .lt)) :
    xs.flatMap (part cmp (fun x => [x]) (fun x y => if keep x y then [x] else []) ys) =
      xs.filter (fun x => !ys.any (fun y => cmp x y == .eq && !keep x y)) := by
  have hpart : ∀ x, part cmp (fun x => [x]) (fun x y => if keep x y then [x] else []) ys x =
      if !ys.any (fun y => cmp x y == .eq && !keep x y) then [x] else [] := by
    intro x
    cases hp : partner cmp ys x with
    | none =>
      have hnone : ys.any (fun y => cmp x y == .eq && !keep x y) = false := by
        rw [any_eq_false]
        intro y hy he
        rw [partner, find?_eq_none] at hp
        exact hp y hy (Bool.and_eq_true _ _ ▸ he).1
      rw [part, hp, hnone]
      rfl
    | some y =>
      obtain ⟨hmy, hc⟩ := partner_eq_some hp
      have hany : ys.any (fun y => cmp x y == .eq && !keep x y) = !keep x y := by
        rw [Bool.eq_iff_iff, any_eq_true]
        constructor
        · rintro ⟨z, hz, hcz⟩
          obtain ⟨hcz, hk⟩ := Bool.and_eq_true_iff.1 hcz
          rw [partner_unique hy hmy hz hc (beq_iff_eq.1 hcz)]
          exact hk
        · intro hk
          exact ⟨y, hmy, by rw [hc, hk]; rfl⟩
      rw [part, hp, hany, Bool.not_not]
      rfl
  induction xs with
  | nil => rfl
  | cons x xs ih =>
    rw [flatMap_cons, filter_cons, ih, hpart]
    split <;> rfl

/-! ### Counting and merging -/

/-- The partners of two sorted lists are equally many, since the walk meets each pair once. -/
theorem countP_comm {xs ys : List α} (hx : xs.Pairwise (fun a b => cmp a b = .lt)) (hy : ys.Pairwise (fun a b => cmp a b = .lt)) :
    xs.countP (fun x => ys.any (fun y => cmp x y == .eq)) = ys.countP (fun y => xs.any (fun x => cmp y x == .eq)) := by
  have hcount : ∀ us vs : List α, (us.flatMap (part cmp (fun _ => []) (fun _ _ => [()]) vs)).length =
      us.countP (fun u => vs.any (fun v => cmp u v == .eq)) := by
    intro us vs
    induction us with
    | nil => rfl
    | cons u us ih =>
      have hpart : (part cmp (fun _ => []) (fun _ _ => [()]) vs u).length = if vs.any (fun v => cmp u v == .eq) then 1 else 0 := by
        have hany : vs.any (fun v => cmp u v == .eq) = (partner cmp vs u).isSome := by
          rw [Bool.eq_iff_iff, any_eq_true, partner, find?_isSome]
        rw [hany, part]
        cases partner cmp vs u <;> rfl
      rw [flatMap_cons, List.length_append, ih, countP_cons, hpart, Nat.add_comm]
  have hnone : ∀ us vs : List α, us.flatMap (part cmp (fun _ => ([] : List Unit)) (fun _ _ => []) vs) = [] := by
    intro us vs
    rw [flatMap_eq_nil_iff]
    intro u _
    unfold part
    cases partner cmp vs u <;> rfl
  have hleft := join_perm (fun _ => []) (fun _ => []) (fun _ _ => [()]) (fun _ _ => [()]) (fun _ _ => []) hx hy (fun _ _ _ _ _ => .refl _)
  have hright := join_perm (fun _ => []) (fun _ => []) (fun _ _ => [()]) (fun _ _ => []) (fun _ _ => [()]) hx hy (fun _ _ _ _ _ => .refl _)
  have hlength := (hleft.symm.trans hright).length_eq
  rw [hnone, hnone, append_nil, nil_append, hcount, hcount] at hlength
  exact hlength

theorem pairwise_merge {xs ys : List α} (hx : xs.Pairwise (fun a b => cmp a b = .lt)) (hy : ys.Pairwise (fun a b => cmp a b = .lt))
    (hne : ∀ x ∈ xs, ∀ y ∈ ys, cmp x y ≠ .eq) :
    (xs.merge ys (fun x y => cmp x y == .lt)).Pairwise (fun a b => cmp a b = .lt) := by
  induction xs generalizing ys with
  | nil => simpa using hy
  | cons x xs ihx =>
    induction ys with
    | nil => simpa using hx
    | cons y ys ihy =>
      have hrest := fun a ha => hne a (mem_cons_of_mem x ha)
      rw [cons_merge_cons]
      cases hcmp : cmp x y with
      | lt =>
        apply pairwise_cons.2
        refine ⟨fun z hz => ?_, ihx (pairwise_cons.1 hx).2 hy hrest⟩
        obtain hz | hz := mem_merge.1 hz
        · exact (pairwise_cons.1 hx).1 z hz
        · exact lt_all_of_lt hy hcmp z hz
      | gt =>
        apply pairwise_cons.2
        refine ⟨fun z hz => ?_, ihy (pairwise_cons.1 hy).2 (fun a ha b hb => hne a ha b (mem_cons_of_mem y hb))⟩
        obtain hz | hz := mem_merge.1 hz
        · exact lt_all_of_lt hx (Std.OrientedCmp.gt_iff_lt.1 hcmp) z hz
        · exact (pairwise_cons.1 hy).1 z hz
      | eq => exact absurd hcmp (hne x mem_cons_self y mem_cons_self)

end Join

/-! ### Lists that agree up to an equivalence -/

theorem exists_perm_forall₂ {α : Type} (R : α → α → Prop) (symm : ∀ {x y}, R x y → R y x)
    (trans : ∀ {x y z}, R x y → R y z → R x z) : ∀ {xs ys : List α}, xs.Pairwise (fun x y => ¬R x y) →
    ys.Pairwise (fun x y => ¬R x y) → (∀ x ∈ xs, ∃ y ∈ ys, R x y) → (∀ y ∈ ys, ∃ x ∈ xs, R x y) →
    ∃ l, l.Perm xs ∧ Forall₂ R l ys
  | [], [], _, _, _, _ => ⟨[], .refl _, .nil⟩
  | x :: xs, [], _, _, hxy, _ => by
    obtain ⟨y, hy, -⟩ := hxy x mem_cons_self
    exact absurd hy not_mem_nil
  | xs, y :: ys, hx, hy, hxy, hyx => by
    obtain ⟨hy1, hy2⟩ := pairwise_cons.1 hy
    obtain ⟨x, hmx, hr⟩ := hyx y mem_cons_self
    obtain ⟨s, t, rfl⟩ := append_of_mem hmx
    have hperm : (x :: (s ++ t)).Perm (s ++ x :: t) := perm_middle.symm
    obtain ⟨hx1, hx2⟩ := pairwise_cons.1 ((hperm.pairwise_iff (fun h h' => h (symm h'))).2 hx)
    -- `x` is the only partner of `y`, and `y` of `x`
    have hl : ∀ z ∈ s ++ t, ∃ w ∈ ys, R z w := by
      intro z hz
      obtain ⟨w, hw, hzw⟩ := hxy z (hperm.mem_iff.1 (mem_cons_of_mem x hz))
      obtain rfl | hw := mem_cons.1 hw
      · exact absurd (trans hr (symm hzw)) (hx1 z hz)
      · exact ⟨w, hw, hzw⟩
    have hr' : ∀ z ∈ ys, ∃ w ∈ s ++ t, R w z := by
      intro z hz
      obtain ⟨w, hw, hwz⟩ := hyx z (mem_cons_of_mem y hz)
      obtain rfl | hw := mem_cons.1 (hperm.mem_iff.2 hw)
      · exact absurd (trans (symm hr) hwz) (hy1 z hz)
      · exact ⟨w, hw, hwz⟩
    obtain ⟨l, hp, hf⟩ := exists_perm_forall₂ R symm trans hx2 hy2 hl hr'
    exact ⟨x :: l, (hp.cons x).trans hperm, .cons hr hf⟩
termination_by _ ys => ys.length

end MergeJoin
