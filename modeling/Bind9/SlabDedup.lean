import Bind9.SlabBytes

/-! # The array of rdata behind a slab

`dns_rdataslab_fromrdataset` sorts the rdata and removes duplicates: the last of equal rdata stays, with the least place in the load
order.  Which one is the last is up to `qsort`. -/

namespace Bind9.RawSlab

open List

section Kept

variable (l : Layout)

/-- The entries that the loop leaves. -/
def keptOf (x : Xrdata) : List Xrdata → List Xrdata
  | [] => [x]
  | y :: ys => if compareRdata l x y = .eq then keptOf { y with order := min x.order y.order } ys else x :: keptOf y ys

/-- What `ks` is to the sorted entries `xs`. -/
structure Kept (xs ks : List Xrdata) : Prop where
  rising : ks.Pairwise (fun a b => compareRdata l a b = .lt)
  mem : ∀ k ∈ ks, ∃ z ∈ xs, z.rdata = k.rdata
  first : ∀ k ∈ ks, ∃ z ∈ xs, compareRdata l z k = .eq ∧ z.order = k.order
  least : ∀ k ∈ ks, ∀ z ∈ xs, compareRdata l z k = .eq → k.order ≤ z.order
  covers : ∀ z ∈ xs, ∃ k ∈ ks, compareRdata l z k = .eq

variable {l} {x : Xrdata}

theorem filter_removeDuplicates {ys : List Xrdata} (hx : x.removed = false) (hys : ∀ y ∈ ys, y.removed = false) :
    (removeDuplicates l x ys).filter (fun x => !x.removed) = keptOf l x ys := by
  induction ys generalizing x with
  | nil =>
    unfold removeDuplicates keptOf
    rw [filter_cons, hx]
    rfl
  | cons y ys ih =>
    have hy := hys y mem_cons_self
    have hrest := fun z hz => hys z (mem_cons_of_mem y hz)
    rw [removeDuplicates, keptOf]
    by_cases heq : compareRdata l x y = .eq
    · rw [if_pos heq, if_pos heq]
      exact @ih { y with order := min x.order y.order } hy hrest
    · rw [if_neg heq, if_neg heq, filter_cons, hx, ih hy hrest]
      rfl

variable [Std.TransCmp (l.ops.compare l.type)]

instance transCmp_rdata : Std.TransCmp (compareRdata l) where
  eq_swap {a b} := @Std.OrientedCmp.eq_swap _ (l.ops.compare l.type) _ a.rdata.data b.rdata.data
  isLE_trans {a b c} := @Std.TransCmp.isLE_trans _ (l.ops.compare l.type) _ a.rdata.data b.rdata.data c.rdata.data

theorem keptOf_kept {ys : List Xrdata} (h : (x :: ys).Pairwise (fun a b => (compareRdata l a b).isLE = true)) :
    Kept l (x :: ys) (keptOf l x ys) := by
  induction ys generalizing x with
  | nil =>
    refine ⟨pairwise_singleton _ _, fun k hk => ⟨k, hk, rfl⟩, fun k hk => ⟨k, hk, Std.ReflCmp.compare_self, rfl⟩, ?_,
      fun z hz => ⟨z, hz, Std.ReflCmp.compare_self⟩⟩
    intro k hk z hz _
    rw [mem_singleton.1 hk, mem_singleton.1 hz]
  | cons y ys ih =>
    obtain ⟨hx, hy⟩ := pairwise_cons.1 h
    rw [keptOf]
    by_cases heq : compareRdata l x y = .eq
    · -- `x` goes and leaves its order to `y`
      rw [if_pos heq]
      have hsame : ∀ z, compareRdata l { y with order := min x.order y.order } z = compareRdata l y z := fun _ => rfl
      have ih' := @ih { y with order := min x.order y.order } (pairwise_cons.2 (pairwise_cons.1 hy))
      refine ⟨ih'.rising, fun k hk => ?_, fun k hk => ?_, fun k hk z hz hzk => ?_, fun z hz => ?_⟩
      · obtain ⟨z, hz, hzk⟩ := ih'.mem k hk
        obtain rfl | hz := mem_cons.1 hz
        · exact ⟨y, by simp, hzk⟩
        · exact ⟨z, by simp [hz], hzk⟩
      · obtain ⟨z, hz, hzk, horder⟩ := ih'.first k hk
        obtain rfl | hz := mem_cons.1 hz
        · have hyk : compareRdata l y k = .eq := hzk
          obtain hmin | hmin : min x.order y.order = x.order ∨ min x.order y.order = y.order := min_choice _ _
          · exact ⟨x, by simp, Std.TransCmp.eq_trans heq hyk, hmin ▸ horder⟩
          · exact ⟨y, by simp, hyk, hmin ▸ horder⟩
        · exact ⟨z, by simp [hz], hzk, horder⟩
      · have hmin := ih'.least k hk { y with order := min x.order y.order } mem_cons_self
        rw [hsame] at hmin
        obtain rfl | hz := mem_cons.1 hz
        · exact (hmin (Std.TransCmp.eq_trans (Std.OrientedCmp.eq_symm heq) hzk)).trans (min_le_left _ _)
        obtain rfl | hz := mem_cons.1 hz
        · exact (hmin hzk).trans (min_le_right _ _)
        · exact ih'.least k hk z (mem_cons_of_mem _ hz) hzk
      · obtain rfl | hz := mem_cons.1 hz
        · obtain ⟨k, hk, hyk⟩ := ih'.covers _ mem_cons_self
          exact ⟨k, hk, Std.TransCmp.eq_trans heq hyk⟩
        · obtain rfl | hz := mem_cons.1 hz
          · exact ih'.covers { z with order := min x.order z.order } mem_cons_self
          · exact ih'.covers z (mem_cons_of_mem _ hz)
    -- `x` stays; it is below the rest
    rw [if_neg heq]
    have hlt : compareRdata l x y = .lt := by
      have hle := hx y mem_cons_self
      cases hc : compareRdata l x y with
      | lt => rfl
      | eq => exact absurd hc heq
      | gt =>
        rw [hc] at hle
        cases hle
    have hall : ∀ z ∈ y :: ys, compareRdata l x z = .lt := by
      intro z hz
      obtain rfl | hz := mem_cons.1 hz
      · exact hlt
      · exact Std.TransCmp.lt_of_lt_of_isLE hlt ((pairwise_cons.1 hy).1 z hz)
    have ih' := ih hy
    have hbelow : ∀ k ∈ keptOf l y ys, compareRdata l x k = .lt := by
      intro k hk
      obtain ⟨z, hz, hzk⟩ := ih'.mem k hk
      have hxz := hall z hz
      unfold compareRdata at hxz ⊢
      rw [← hzk]
      exact hxz
    refine ⟨pairwise_cons.2 ⟨hbelow, ih'.rising⟩, fun k hk => ?_, fun k hk => ?_, fun k hk z hz hzk => ?_, fun z hz => ?_⟩
    · obtain rfl | hk := mem_cons.1 hk
      · exact ⟨k, mem_cons_self, rfl⟩
      · obtain ⟨z, hz, hzk⟩ := ih'.mem k hk
        exact ⟨z, mem_cons_of_mem _ hz, hzk⟩
    · obtain rfl | hk := mem_cons.1 hk
      · exact ⟨k, mem_cons_self, Std.ReflCmp.compare_self, rfl⟩
      · obtain ⟨z, hz, hzk⟩ := ih'.first k hk
        exact ⟨z, mem_cons_of_mem _ hz, hzk⟩
    · obtain rfl | hkept := mem_cons.1 hk
      · obtain rfl | hz := mem_cons.1 hz
        · exact Nat.le_refl _
        · have hkz := hall z hz
          rw [Std.OrientedCmp.eq_comm.1 hzk] at hkz
          cases hkz
      · obtain rfl | hz := mem_cons.1 hz
        · rw [hbelow k hkept] at hzk
          cases hzk
        · exact ih'.least k hkept z hz hzk
    · obtain rfl | hz := mem_cons.1 hz
      · exact ⟨z, mem_cons_self, Std.ReflCmp.compare_self⟩
      · obtain ⟨k, hk, hzk⟩ := ih'.covers z hz
        exact ⟨k, mem_cons_of_mem _ hk, hzk⟩

omit [Std.TransCmp (l.ops.compare l.type)] in
theorem mem_keptOf_last {ys a b : List Xrdata} {z : Xrdata}
    (h : (x :: ys).Pairwise (fun a b => (compareRdata l a b).isLE = true)) (hz : x :: ys = a ++ z :: b)
    (hlast : ∀ w ∈ b, compareRdata l z w ≠ .eq) : ∃ k ∈ keptOf l x ys, k.rdata = z.rdata := by
  induction ys generalizing x a z with
  | nil =>
    obtain rfl : x = z := by
      have hmem : z ∈ [x] := by
        rw [hz]
        simp
      exact (mem_singleton.1 hmem).symm
    exact ⟨x, mem_singleton_self x, rfl⟩
  | cons y ys ih =>
    obtain ⟨-, hy⟩ := pairwise_cons.1 h
    rw [keptOf]
    cases a with
    | nil =>
      obtain ⟨rfl, rfl⟩ := cons.inj hz
      rw [if_neg (hlast y mem_cons_self)]
      exact ⟨x, mem_cons_self, rfl⟩
    | cons x' a =>
      obtain ⟨rfl, hrest⟩ := cons.inj hz
      by_cases heq : compareRdata l x y = .eq
      · rw [if_pos heq]
        cases a with
        | nil =>
          obtain ⟨rfl, rfl⟩ := cons.inj hrest
          exact @ih { y with order := min x.order y.order } [] { y with order := min x.order y.order }
            (pairwise_cons.2 (pairwise_cons.1 hy)) rfl hlast
        | cons y' a =>
          obtain ⟨rfl, hrest'⟩ := cons.inj hrest
          exact @ih { y with order := min x.order y.order } ({ y with order := min x.order y.order } :: a) z
            (pairwise_cons.2 (pairwise_cons.1 hy)) (by rw [hrest']; rfl) hlast
      rw [if_neg heq]
      obtain ⟨k, hk, hkz⟩ := ih hy hrest hlast
      exact ⟨k, mem_cons_of_mem _ hk, hkz⟩

end Kept

/-! ### The rdataset -/

section Rdataset

variable (l : Layout) (q : Diff.Qsort) (rdataset : List Item)

/-- The array as it is filled. -/
def entries : List Xrdata := rdataset.zipIdx.map (fun (rdata, i) => ⟨rdata, i, false⟩)

/-- The entries that are written. -/
def kept : List Xrdata := (sorted l q rdataset).filter (fun x => !x.removed)

/-- The rdata that are not equal to an earlier one, with their places. -/
def firstPlaces : List (Item × ℕ) :=
  rdataset.zipIdx.filter (fun p => !(rdataset.take p.2).any (fun s => l.ops.compare l.type s.data p.1.data == .eq))

/-- The rdata that are not equal to an earlier one. -/
def firstOccurrences : List Item := (firstPlaces l rdataset).map Prod.fst

variable {l q rdataset}

theorem mem_entries {z : Xrdata} : z ∈ entries rdataset ↔ rdataset[z.order]? = some z.rdata ∧ z.removed = false := by
  unfold entries
  rw [mem_map]
  constructor
  · rintro ⟨⟨r, i⟩, hmem, rfl⟩
    exact ⟨mem_zipIdx_iff_getElem?.mp hmem, rfl⟩
  · rintro ⟨hget, hremoved⟩
    refine ⟨(z.rdata, z.order), mem_zipIdx_iff_getElem?.mpr hget, ?_⟩
    cases z
    cases hremoved
    rfl

variable [Std.TransCmp (l.ops.compare l.type)]

/-- What is written, for a rdataset that is not empty. -/
theorem kept_eq (hne : rdataset ≠ []) : ∃ x xs, q.sort (compareRdata l) (entries rdataset) = x :: xs ∧ kept l q rdataset = keptOf l x xs ∧
    (x :: xs).Pairwise (fun a b => (compareRdata l a b).isLE = true) ∧ (∀ z, z ∈ x :: xs ↔ z ∈ entries rdataset) ∧
    sorted l q rdataset = removeDuplicates l x xs := by
  have hperm := q.perm (compareRdata l) (entries rdataset)
  have hsorted := q.sorted (compareRdata l) (entries rdataset)
  have hsort : sorted l q rdataset = match q.sort (compareRdata l) (entries rdataset) with
      | [] => []
      | x :: xs => removeDuplicates l x xs := rfl
  cases hq : q.sort (compareRdata l) (entries rdataset) with
  | nil =>
    rw [hq] at hperm
    have hlen := hperm.length_eq
    unfold entries at hlen
    rw [length_map, length_zipIdx, length_nil] at hlen
    exact absurd (length_eq_zero_iff.1 hlen.symm) hne
  | cons x xs =>
    rw [hq] at hperm hsorted
    have hremoved : ∀ z ∈ x :: xs, z.removed = false := fun z hz => (mem_entries.1 (hperm.mem_iff.1 hz)).2
    refine ⟨x, xs, rfl, ?_, hsorted, fun z => hperm.mem_iff, ?_⟩
    · unfold kept
      rw [hsort, hq]
      exact filter_removeDuplicates (hremoved x mem_cons_self) (fun y hy => hremoved y (mem_cons_of_mem _ hy))
    · rw [hsort, hq]

theorem kept_spec (hne : rdataset ≠ []) : Kept l (entries rdataset) (kept l q rdataset) := by
  obtain ⟨x, xs, -, hkept, hsorted, hmem, -⟩ := kept_eq (l := l) (q := q) hne
  obtain ⟨h1, h2, h3, h4, h5⟩ := keptOf_kept hsorted
  rw [hkept]
  refine ⟨h1, fun k hk => ?_, fun k hk => ?_, fun k hk z hz => h4 k hk z ((hmem z).2 hz), fun z hz => h5 z ((hmem z).2 hz)⟩
  · obtain ⟨z, hz, hzk⟩ := h2 k hk
    exact ⟨z, (hmem z).1 hz, hzk⟩
  · obtain ⟨z, hz, hzk⟩ := h3 k hk
    exact ⟨z, (hmem z).1 hz, hzk⟩

/-- The rdata that are written are some of the rdataset. -/
theorem mem_of_kept (hne : rdataset ≠ []) {k : Xrdata} (hk : k ∈ kept l q rdataset) : k.rdata ∈ rdataset := by
  obtain ⟨z, hz, hzk⟩ := (kept_spec hne).mem k hk
  rw [← hzk]
  exact mem_of_getElem? (mem_entries.1 hz).1

/-- Every rdata of the rdataset is equal to one that is written. -/
theorem kept_covers (hne : rdataset ≠ []) {r : Item} (hr : r ∈ rdataset) :
    ∃ k ∈ kept l q rdataset, l.ops.compare l.type r.data k.rdata.data = .eq := by
  obtain ⟨i, hi⟩ := getElem?_of_mem hr
  exact (kept_spec hne).covers ⟨r, i, false⟩ (mem_entries.2 ⟨hi, rfl⟩)

theorem kept_order (hne : rdataset ≠ []) {k : Xrdata} (hk : k ∈ kept l q rdataset) :
    ∃ r, rdataset[k.order]? = some r ∧ l.ops.compare l.type r.data k.rdata.data = .eq ∧
      ∀ j s, rdataset[j]? = some s → l.ops.compare l.type s.data k.rdata.data = .eq → k.order ≤ j := by
  have hspec := kept_spec (l := l) (q := q) hne
  obtain ⟨z, hz, hzk, horder⟩ := hspec.first k hk
  refine ⟨z.rdata, horder ▸ (mem_entries.1 hz).1, hzk, fun j s hs hsk => ?_⟩
  exact hspec.least k hk ⟨s, j, false⟩ (mem_entries.2 ⟨hs, rfl⟩) hsk

theorem kept_order_lt (hne : rdataset ≠ []) : ∀ k ∈ kept l q rdataset, k.order < rdataset.length := by
  intro k hk
  obtain ⟨r, hr, -⟩ := kept_order hne hk
  exact (List.getElem?_eq_some_iff.1 hr).1

theorem kept_orders (hne : rdataset ≠ []) : ((kept l q rdataset).map Xrdata.order).Nodup := by
  refine pairwise_map.2 ((kept_spec hne).rising.imp_of_mem (fun {a b} ha hb hab heq => ?_))
  obtain ⟨r, hr, hra, -⟩ := kept_order hne ha
  obtain ⟨s, hs, hsb, -⟩ := kept_order hne hb
  rw [heq, hs] at hr
  cases hr
  have heq' : l.ops.compare l.type a.rdata.data b.rdata.data = .eq := Std.TransCmp.eq_trans (Std.OrientedCmp.eq_symm hra) hsb
  have hlt : l.ops.compare l.type a.rdata.data b.rdata.data = .lt := hab
  rw [heq'] at hlt
  cases hlt

theorem kept_ne (hne : rdataset ≠ []) : kept l q rdataset ≠ [] := by
  intro hnil
  obtain ⟨r, rs, rfl⟩ := exists_cons_of_ne_nil hne
  obtain ⟨k, hk, -⟩ := kept_covers (l := l) (q := q) hne mem_cons_self
  rw [hnil] at hk
  exact absurd hk not_mem_nil

/-- The places of the entries are the places of the first occurrences. -/
theorem mem_kept_orders (hne : rdataset ≠ []) (i : ℕ) :
    i ∈ (kept l q rdataset).map Xrdata.order ↔ i ∈ (firstPlaces l rdataset).map Prod.snd := by
  have hplaces : ∀ r j, (r, j) ∈ firstPlaces l rdataset ↔ rdataset[j]? = some r ∧
      ∀ s ∈ rdataset.take j, l.ops.compare l.type s.data r.data ≠ .eq := by
    intro r j
    unfold firstPlaces
    rw [mem_filter, mem_zipIdx_iff_getElem?]
    simp
  constructor
  · intro hi
    obtain ⟨k, hk, rfl⟩ := mem_map.1 hi
    obtain ⟨r, hr, hrk, hleast⟩ := kept_order hne hk
    refine mem_map.2 ⟨(r, k.order), (hplaces r k.order).2 ⟨hr, fun s hs hsr => ?_⟩, rfl⟩
    obtain ⟨j, hj⟩ := getElem?_of_mem hs
    obtain ⟨hlt, -⟩ := List.getElem?_eq_some_iff.1 hj
    rw [length_take] at hlt
    have hj' : rdataset[j]? = some s := by
      rw [getElem?_take_of_lt (by omega)] at hj
      exact hj
    have hle := hleast j s hj' (Std.TransCmp.eq_trans hsr hrk)
    omega
  · intro hi
    obtain ⟨⟨r, j⟩, hmem, rfl⟩ := mem_map.1 hi
    obtain ⟨hr, hfirst⟩ := (hplaces r j).1 hmem
    obtain ⟨k, hk, hrk⟩ := kept_covers (l := l) (q := q) hne (mem_of_getElem? hr)
    obtain ⟨s, hs, hsk, hleast⟩ := kept_order hne hk
    have hle := hleast j r hr hrk
    refine mem_map.2 ⟨k, hk, ?_⟩
    by_contra hne'
    have hlt : k.order < j := lt_of_le_of_ne hle hne'
    refine hfirst s (mem_of_getElem? (i := k.order) ?_) (Std.TransCmp.eq_trans hsk (Std.OrientedCmp.eq_symm hrk))
    rw [getElem?_take_of_lt hlt]
    exact hs

/-- The entries by their orders. -/
theorem kept_firstOccurrences (hne : rdataset ≠ []) {ks : List Xrdata} (hperm : ks.Perm (kept l q rdataset))
    (hrising : ks.Pairwise (fun a b => a.order < b.order)) :
    Forall₂ (fun k r => l.ops.compare l.type k.rdata.data r.data = .eq) ks (firstOccurrences l rdataset) := by
  have hplaces : ((firstPlaces l rdataset).map Prod.snd).Pairwise (· < ·) := by
    have hsub : ((firstPlaces l rdataset).map Prod.snd).Sublist (rdataset.zipIdx.map Prod.snd) := filter_sublist.map _
    rw [zipIdx_map_snd] at hsub
    exact (pairwise_lt_range' (s := 0) (n := rdataset.length)).sublist hsub
  have hsame : ks.map Xrdata.order = (firstPlaces l rdataset).map Prod.snd := by
    have hks : (ks.map Xrdata.order).Pairwise (· < ·) := pairwise_map.2 hrising
    refine Perm.eq_of_pairwise (fun a b _ _ hab hba => absurd hab (Nat.lt_asymm hba)) hks hplaces ?_
    refine (perm_ext_iff_of_nodup (hks.imp ne_of_lt) (hplaces.imp ne_of_lt)).2 (fun i => ?_)
    rw [(hperm.map Xrdata.order).mem_iff]
    exact mem_kept_orders hne i
  have hpair : ∀ k ∈ ks, ∀ p ∈ firstPlaces l rdataset, k.order = p.2 → l.ops.compare l.type k.rdata.data p.1.data = .eq := by
    intro k hk p hp heq
    obtain ⟨r, hr, hrk, -⟩ := kept_order hne (hperm.mem_iff.1 hk)
    have hget : rdataset[p.2]? = some p.1 := mem_zipIdx_iff_getElem?.mp (mem_filter.1 hp).1
    rw [heq, hget] at hr
    cases hr
    exact Std.OrientedCmp.eq_symm hrk
  have hall : ∀ (xs : List Xrdata) (ps : List (Item × ℕ)), xs.map Xrdata.order = ps.map Prod.snd →
      (∀ k ∈ xs, ∀ p ∈ ps, k.order = p.2 → l.ops.compare l.type k.rdata.data p.1.data = .eq) →
      Forall₂ (fun k r => l.ops.compare l.type k.rdata.data r.data = .eq) xs (ps.map Prod.fst) := by
    intro xs
    induction xs with
    | nil =>
      intro ps heq _
      obtain rfl : ps = [] := map_eq_nil_iff.1 heq.symm
      exact .nil
    | cons k xs ih =>
      intro ps heq hcompare
      cases ps with
      | nil => cases heq
      | cons p ps =>
        obtain ⟨hhead, htail⟩ := cons.inj heq
        exact .cons (hcompare k mem_cons_self p mem_cons_self hhead)
          (ih ps htail (fun a ha b hb => hcompare a (mem_cons_of_mem _ ha) b (mem_cons_of_mem _ hb)))
  exact hall ks _ hsame hpair

end Rdataset

/-! ### A sort that prefers -/

section Preferred

/-- Equal elements in which the chosen places come last. -/
def preferring {α : Type} (cmp : α → α → Ordering) (chosen : ℕ → Bool) (a b : α × ℕ) : Ordering :=
  (cmp a.1 b.1).then (compare (chosen a.2) (chosen b.2))

theorem transCmp_preferring {α : Type} (cmp : α → α → Ordering) [Std.TransCmp cmp] (chosen : ℕ → Bool) :
    Std.TransCmp (preferring cmp chosen) :=
  have _ : Std.TransCmp (fun a b : α × ℕ => cmp a.1 b.1) := {
    eq_swap := Std.OrientedCmp.eq_swap
    isLE_trans := Std.TransCmp.isLE_trans }
  have _ : Std.TransCmp (fun a b : α × ℕ => compare (chosen a.2) (chosen b.2)) :=
    inferInstanceAs (Std.TransCmp (compareOn (fun p : α × ℕ => chosen p.2)))
  inferInstanceAs (Std.TransCmp (compareLex (fun a b : α × ℕ => cmp a.1 b.1) (fun a b : α × ℕ => compare (chosen a.2) (chosen b.2))))

theorem pairwise_preferring {α : Type} (cmp : α → α → Ordering) [Std.TransCmp cmp] (chosen : ℕ → Bool) (xs : List (α × ℕ)) :
    (xs.mergeSort (fun a b => (preferring cmp chosen a b).isLE)).Pairwise (fun a b => (preferring cmp chosen a b).isLE = true) :=
  have _ := transCmp_preferring cmp chosen
  Diff.Qsort.mergeSort.sorted (preferring cmp chosen) xs

/-- A `qsort` that puts the chosen elements last among equal ones. -/
def preferringSort (chosen : ℕ → Bool) : Diff.Qsort where
  sort cmp xs := (xs.zipIdx.mergeSort (fun a b => (preferring cmp chosen a b).isLE)).map Prod.fst
  perm cmp xs := by
    have hperm := (mergeSort_perm xs.zipIdx (fun a b => (preferring cmp chosen a b).isLE)).map Prod.fst
    rw [zipIdx_map_fst] at hperm
    exact hperm
  sorted cmp _ xs := by
    refine pairwise_map.2 ((pairwise_preferring cmp chosen xs.zipIdx).imp (fun {a b} hab => ?_))
    unfold preferring at hab
    cases hc : cmp a.1 b.1 with
    | lt => rfl
    | eq => rfl
    | gt =>
      rw [hc] at hab
      cases hab

variable {l : Layout} {rdataset : List Item} [Std.TransCmp (l.ops.compare l.type)]

/-- Any choice of rdata of which no two are equal can be what is written. -/
theorem exists_kept {c : List Item} (hsub : c ⊆ rdataset) (hdistinct : c.Pairwise (fun r s => l.ops.compare l.type r.data s.data ≠ .eq)) :
    ∃ q, ∀ r ∈ c, ∃ k ∈ kept l q rdataset, k.rdata = r := by
  obtain ⟨chosen, hchosen⟩ : ∃ chosen : ℕ → Bool, ∀ i, chosen i = true ↔ ∃ s ∈ c, rdataset.idxOf s = i :=
    ⟨fun i => c.any (fun s => rdataset.idxOf s == i), fun i => by simp [any_eq_true]⟩
  refine ⟨preferringSort chosen, fun r hr => ?_⟩
  have hne : rdataset ≠ [] := ne_nil_of_mem (hsub hr)
  obtain ⟨x, xs, hsort, hkept, hsorted, -, -⟩ := @kept_eq l (preferringSort chosen) rdataset _ hne
  have hpair := pairwise_preferring (compareRdata l) chosen (entries rdataset).zipIdx
  have hperm := mergeSort_perm (entries rdataset).zipIdx (fun a b => (preferring (compareRdata l) chosen a b).isLE)
  have hsort' : ((entries rdataset).zipIdx.mergeSort (fun a b => (preferring (compareRdata l) chosen a b).isLE)).map Prod.fst = x :: xs := hsort
  generalize (entries rdataset).zipIdx.mergeSort (fun a b => (preferring (compareRdata l) chosen a b).isLE) = ps at hpair hperm hsort'
  have hplace : ∀ p ∈ ps, rdataset[p.2]? = some p.1.rdata := by
    intro p hp
    have hget : (entries rdataset)[p.2]? = some p.1 := mem_zipIdx_iff_getElem?.mp (hperm.mem_iff.1 hp)
    unfold entries at hget
    rw [getElem?_map, getElem?_zipIdx] at hget
    cases hi : rdataset[p.2]? with
    | none =>
      rw [hi] at hget
      cases hget
    | some s =>
      rw [hi] at hget
      rw [← Option.some.inj hget]
  have hmem : ((⟨r, rdataset.idxOf r, false⟩ : Xrdata), rdataset.idxOf r) ∈ ps := by
    rw [hperm.mem_iff, mem_zipIdx_iff_getElem?]
    unfold entries
    rw [getElem?_map, getElem?_zipIdx, getElem?_idxOf (hsub hr), Nat.zero_add]
    rfl
  obtain ⟨a, b, rfl⟩ := append_of_mem hmem
  rw [map_append, map_cons] at hsort'
  rw [hkept]
  apply mem_keptOf_last hsorted hsort'.symm
  intro w hw heq
  obtain ⟨p, hp, rfl⟩ := mem_map.1 hw
  have hle := (pairwise_cons.1 (pairwise_append.1 hpair).2.1).1 p hp
  -- the other element has been chosen too
  have hself : chosen (rdataset.idxOf r) = true := (hchosen _).2 ⟨r, hr, rfl⟩
  have hother : chosen p.2 = true := by
    unfold preferring at hle
    rw [heq, hself] at hle
    cases hb : chosen p.2 with
    | true => rfl
    | false =>
      rw [hb] at hle
      cases hle
  obtain ⟨s, hs, hsp⟩ := (hchosen p.2).1 hother
  have hps : p.1.rdata = s := by
    have hget := hplace p (mem_append_right _ (mem_cons_of_mem _ hp))
    rw [← hsp, getElem?_idxOf (hsub hs)] at hget
    exact (Option.some.inj hget).symm
  have hnodup : ((a ++ ((⟨r, rdataset.idxOf r, false⟩ : Xrdata), rdataset.idxOf r) :: b).map Prod.snd).Nodup := by
    rw [(hperm.map Prod.snd).nodup_iff, zipIdx_map_snd]
    exact nodup_range'
  have hne' : r ≠ s := by
    intro hrs
    rw [map_append, map_cons] at hnodup
    have hfresh := (nodup_cons.1 (nodup_append.1 hnodup).2.1).1
    apply hfresh
    rw [hrs]
    exact mem_map.2 ⟨p, hp, hsp.symm⟩
  have _ : Std.Symm (fun u v : Item => l.ops.compare l.type u.data v.data ≠ .eq) := ⟨fun _ _ huv hvu => huv (Std.OrientedCmp.eq_symm hvu)⟩
  apply hdistinct.forall hr hs hne'
  rw [← hps]
  exact heq

end Preferred

end Bind9.RawSlab
