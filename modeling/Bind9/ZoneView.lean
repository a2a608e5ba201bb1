import Bind9.ZoneDb

/-! # What a diff does to a zone, record by record

A zone is looked at as a set of records: under each key the TTL and the rdata, up to `dns_rdata_compare`.  `View.apply`
deletes or adds one record.  `diff_apply` collects tuples, sorts them and merges slabs; `diffApply_view` says that,
where it succeeds, the outcome is that of the tuples one after the other. -/

namespace Bind9.ZoneDb

open List
open Function
open Option hiding any_eq_false mem_map

open Diff Rbtdb Std

/-! ### Slabs as sets -/

variable {l m : List Rdata}

section slabs

variable {ops : RdataOps} {type : UInt16}

/-- The rdata are in DNSSEC order, without duplicates. -/
def InOrder (ops : RdataOps) (type : UInt16) (l : List Rdata) : Prop := l.Pairwise (fun a b => ops.compare type a b = .lt)

/-- The rdata that a list holds, up to `dns_rdata_compare`. -/
def members (ops : RdataOps) (type : UInt16) (l : List Rdata) : Set Rdata := {r | ∃ x ∈ l, ops.compare type x r = .eq}

theorem mem_members {r : Rdata} : r ∈ members ops type l ↔ ∃ x ∈ l, ops.compare type x r = .eq := Iff.rfl

theorem members_cons (a : Rdata) (l : List Rdata) :
    members ops type (a :: l) = {r | ops.compare type a r = .eq} ∪ members ops type l := by
  ext r
  simp only [mem_members, mem_cons, exists_eq_or_imp, Set.mem_union, Set.mem_ofPred_eq]

theorem members_append (l m : List Rdata) : members ops type (l ++ m) = members ops type l ∪ members ops type m := by
  ext r
  simp only [mem_members, mem_append, or_and_right, exists_or, Set.mem_union]

/-- Only the elements count. -/
theorem members_congr (h : ∀ x, x ∈ l ↔ x ∈ m) : members ops type l = members ops type m := by
  ext r
  simp only [mem_members, h]

theorem mem_mergeLoop (x : Rdata) (os ns : List Rdata) : x ∈ Slab.mergeLoop ops type os ns ↔ x ∈ os ∨ x ∈ ns := by
  induction os, ns using Slab.mergeLoop.induct ops type with
  | case1 os | case2 n ns => simp [Slab.mergeLoop]
  | case3 o os n ns hlt ih =>
    rw [Slab.mergeLoop, if_pos hlt, mem_cons, ih]
    simp only [mem_cons]
    tauto
  | case4 o os n ns hlt ih =>
    rw [Slab.mergeLoop, if_neg hlt, mem_cons, ih]
    simp only [mem_cons]
    tauto

theorem merge_eq {old new m : Slab} {mem exact force : Bool} (h : Slab.merge ops type mem old new exact force = .ok m) :
    m.1 = Slab.mergeLoop ops type old.1 (Slab.added ops type old new) := by
  unfold Slab.merge at h
  simp only at h
  split at h
  · cases h
  split at h
  · cases h
  split at h
  · cases h
  split at h
  · cases h
  split at h
  · cases h
  cases h
  rfl

theorem subtract_exact {old sub rest : Slab} (h : Slab.subtract ops type true old sub true = .ok rest) :
    rest.1 = Slab.kept ops type old sub ∧ old.1.length - rest.1.length = sub.1.length := by
  unfold Slab.subtract at h
  simp only at h
  split at h
  · cases h
  next hcount =>
    split at h
    · cases h
    split at h
    · cases h
    split at h
    · cases h
    cases h
    exact ⟨rfl, by simpa using hcount⟩

theorem subtract_exact_error {old sub : Slab} {r : Result} (h : Slab.subtract ops type true old sub true = .error r) :
    r = .notexact ∨ r = .nxrrset ∧ Slab.kept ops type old sub = [] ∧ old.1.length = sub.1.length := by
  unfold Slab.subtract at h
  simp only at h
  split at h
  · cases h
    exact .inl rfl
  next hcount =>
    have hlen : old.1.length - (Slab.kept ops type old sub).length = sub.1.length := by simpa using hcount
    split at h
    next hr =>
      cases h
      rw [hr, length_nil, Nat.sub_zero] at hlen
      exact .inr ⟨rfl, hr, hlen⟩
    split at h
    next hz =>
      have hpos := length_pos_of_ne_nil sub.2
      omega
    split at h
    · rename_i hm
      cases hm
    · cases h

variable [TransCmp (ops.compare type)]

theorem members_nonempty {l : List Rdata} (h : l ≠ []) : (members ops type l).Nonempty := by
  obtain ⟨x, l', rfl⟩ := exists_cons_of_ne_nil h
  exact ⟨x, x, mem_cons_self, ReflCmp.compare_self⟩

theorem rdataInSlab_iff {r : Rdata} : ∀ {l : List Rdata}, InOrder ops type l →
    (Slab.rdataInSlab ops type r l = true ↔ r ∈ members ops type l)
  | [], _ => by simp [Slab.rdataInSlab, mem_members]
  | x :: l, h => by
    obtain ⟨hx, hl⟩ := pairwise_cons.1 h
    rw [members_cons, Set.mem_union, Set.mem_ofPred_eq, Slab.rdataInSlab]
    cases hc : ops.compare type x r with
    | eq => simp
    | lt =>
      simp only [reduceCtorEq, false_or]
      exact rdataInSlab_iff hl
    | gt =>
      -- everything behind `x` is greater still
      simp only [Bool.false_eq_true, reduceCtorEq, false_or, false_iff, mem_members, not_exists, not_and]
      intro y hy heq
      have hlt : ops.compare type x r = .lt := TransCmp.lt_of_lt_of_eq (hx y hy) heq
      rw [hc] at hlt
      cases hlt

theorem mergeLoop_inOrder {os ns : List Rdata} (ho : InOrder ops type os) (hn : InOrder ops type ns)
    (hne : ∀ o ∈ os, ∀ n ∈ ns, ops.compare type o n ≠ .eq) : InOrder ops type (Slab.mergeLoop ops type os ns) := by
  induction os, ns using Slab.mergeLoop.induct ops type with
  | case1 os =>
    rw [Slab.mergeLoop]
    exact ho
  | case2 n ns =>
    rw [Slab.mergeLoop]
    exact hn
  | case3 o os n ns hlt ih =>
    obtain ⟨ho1, ho2⟩ := pairwise_cons.1 ho
    rw [Slab.mergeLoop, if_pos hlt]
    refine pairwise_cons.2 ⟨fun x hx => ?_, ih ho2 hn (fun a ha => hne a (mem_cons_of_mem o ha))⟩
    obtain hx | hx := (mem_mergeLoop x _ _).1 hx
    · exact ho1 x hx
    obtain rfl | hx := mem_cons.1 hx
    · exact hlt
    · exact TransCmp.lt_trans hlt ((pairwise_cons.1 hn).1 x hx)
  | case4 o os n ns hlt ih =>
    obtain ⟨hn1, hn2⟩ := pairwise_cons.1 hn
    rw [Slab.mergeLoop, if_neg hlt]
    have hno : ops.compare type n o = .lt := by
      cases hc : ops.compare type o n with
      | lt => exact absurd hc hlt
      | eq => exact absurd hc (hne o mem_cons_self n mem_cons_self)
      | gt => exact OrientedCmp.lt_of_gt hc
    refine pairwise_cons.2 ⟨fun x hx => ?_, ih ho hn2 (fun a ha b hb => hne a ha b (mem_cons_of_mem n hb))⟩
    obtain hx | hx := (mem_mergeLoop x _ _).1 hx
    · obtain rfl | hx := mem_cons.1 hx
      · exact hno
      · exact TransCmp.lt_trans hno ((pairwise_cons.1 ho).1 x hx)
    · exact hn1 x hx

variable {old new : Slab}

theorem mem_added (ho : InOrder ops type old.1) {x : Rdata} :
    x ∈ Slab.added ops type old new ↔ x ∈ new.1 ∧ x ∉ members ops type old.1 := by
  rw [Slab.added, mem_filter, ← rdataInSlab_iff ho]
  simp

theorem added_members (ho : InOrder ops type old.1) :
    members ops type old.1 ∪ members ops type (Slab.added ops type old new) =
      members ops type old.1 ∪ members ops type new.1 := by
  ext r
  simp only [Set.mem_union]
  constructor
  · rintro (h | ⟨x, hx, he⟩)
    · exact .inl h
    · exact .inr ⟨x, ((mem_added ho).1 hx).1, he⟩
  · rintro (h | ⟨x, hx, he⟩)
    · exact .inl h
    · by_cases hm : x ∈ members ops type old.1
      · obtain ⟨y, hy, hyx⟩ := hm
        exact .inl ⟨y, hy, TransCmp.eq_trans hyx he⟩
      · exact .inr ⟨x, (mem_added ho).2 ⟨hx, hm⟩, he⟩

theorem merge_ok {old new m : Slab} {exact force : Bool} (ho : InOrder ops type old.1) (hn : InOrder ops type new.1)
    (h : Slab.merge ops type true old new exact force = .ok m) :
    InOrder ops type m.1 ∧ members ops type m.1 = members ops type old.1 ∪ members ops type new.1 := by
  rw [merge_eq h]
  constructor
  · refine mergeLoop_inOrder ho (Pairwise.filter _ hn) (fun o ho' n hn' he => ?_)
    exact ((mem_added ho).1 hn').2 ⟨o, ho', he⟩
  · rw [← added_members ho, ← members_append]
    exact members_congr (fun x => by rw [mem_mergeLoop, mem_append])

theorem merge_unchanged {exact force : Bool} (ho : InOrder ops type old.1)
    (h : Slab.merge ops type true old new exact force = .error .unchanged) :
    members ops type old.1 ∪ members ops type new.1 = members ops type old.1 := by
  have hnil : Slab.added ops type old new = [] := by
    unfold Slab.merge at h
    simp only at h
    split at h
    · cases h
    split at h
    next hc => exact hc.1
    split at h
    · cases h
    split at h
    · cases h
    split at h
    · cases h
    cases h
  rw [← added_members ho, hnil]
  ext r
  simp [mem_members]

/-- What `dns_rdataslab_subtract` keeps. -/
theorem kept_members (old sub : Slab) :
    members ops type (Slab.kept ops type old sub) = members ops type old.1 \ members ops type sub.1 := by
  ext r
  simp only [Set.mem_sdiff, mem_members, Slab.kept, mem_filter, Bool.not_eq_true', any_eq_false, beq_iff_eq]
  constructor
  · rintro ⟨x, ⟨hx, hno⟩, he⟩
    refine ⟨⟨x, hx, he⟩, ?_⟩
    rintro ⟨y, hy, hyr⟩
    exact hno y hy (TransCmp.eq_trans he (OrientedCmp.eq_symm hyr))
  · rintro ⟨⟨x, hx, he⟩, hno⟩
    refine ⟨x, ⟨hx, fun y hy hxy => hno ⟨y, hy, ?_⟩⟩, he⟩
    exact TransCmp.eq_trans (OrientedCmp.eq_symm hxy) he

/-- The loop that removes duplicates keeps the set and makes the order strict. -/
theorem dedup_spec : ∀ {l : List Rdata}, l.Pairwise (fun a b => (ops.compare type a b).isLE = true) →
    InOrder ops type (dedup (ops.compare type) l) ∧ members ops type (dedup (ops.compare type) l) = members ops type l ∧
      ∀ x ∈ dedup (ops.compare type) l, x ∈ l
  | [], _ => ⟨Pairwise.nil, rfl, fun _ h => h⟩
  | [a], _ => ⟨pairwise_singleton _ a, rfl, fun _ h => h⟩
  | a :: b :: l, h => by
    obtain ⟨ha, hl⟩ := pairwise_cons.1 h
    obtain ⟨ih1, ih2, ih3⟩ := dedup_spec hl
    rw [dedup]
    split
    next heq =>
      refine ⟨ih1, ?_, fun x hx => mem_cons_of_mem a (ih3 x hx)⟩
      rw [ih2, members_cons a, members_cons b]
      ext r
      simp only [Set.mem_union, Set.mem_ofPred_eq]
      constructor
      · rintro (hr | hr)
        · exact .inr (.inl hr)
        · exact .inr (.inr hr)
      · rintro (hr | hr | hr)
        · exact .inl (TransCmp.eq_trans (OrientedCmp.eq_symm heq) hr)
        · exact .inl hr
        · exact .inr hr
    next hne =>
      refine ⟨pairwise_cons.2 ⟨fun x hx => ?_, ih1⟩, ?_, fun x hx => ?_⟩
      · have hab : ops.compare type a b = .lt := by
          have hle := ha b mem_cons_self
          cases hc : ops.compare type a b with
          | lt => rfl
          | eq => exact absurd hc hne
          | gt =>
            rw [hc] at hle
            cases hle
        obtain rfl | hx := mem_cons.1 (ih3 x hx)
        · exact hab
        · exact TransCmp.lt_of_lt_of_isLE hab ((pairwise_cons.1 hl).1 x hx)
      · rw [members_cons a, ih2, ← members_cons a]
      · obtain rfl | hx := mem_cons.1 hx
        · exact mem_cons_self
        · exact mem_cons_of_mem a (ih3 x hx)

end slabs

theorem fromrdataset_eq {env : Env} {type : UInt16} {rdata : List Rdata} {slab : Slab}
    (h : fromrdataset env type rdata = .ok slab) :
    slab.1 = dedup (env.ops.compare type) (env.qsort.sort (env.ops.compare type) rdata) := by
  unfold fromrdataset at h
  simp only at h
  split at h
  · cases h
  split at h
  · cases h
  split at h
  · cases h
  cases h
  rfl

theorem fromrdataset_ok {env : Env} {type : UInt16} [TransCmp (env.ops.compare type)] {rdata : List Rdata} {slab : Slab}
    (h : fromrdataset env type rdata = .ok slab) :
    InOrder env.ops type slab.1 ∧ members env.ops type slab.1 = members env.ops type rdata ∧ ∀ x ∈ slab.1, x ∈ rdata := by
  obtain ⟨h1, h2, h3⟩ := dedup_spec (env.qsort.sorted (env.ops.compare type) rdata)
  have hperm := env.qsort.perm (env.ops.compare type) rdata
  rw [fromrdataset_eq h]
  refine ⟨h1, ?_, fun x hx => hperm.mem_iff.1 (h3 x hx)⟩
  rw [h2]
  exact members_congr (fun x => hperm.mem_iff)

/-! ### Zones as sets of records -/

/-- The TTL and the rdata under each key. -/
abbrev View := Key → Option (ℕ × Set Rdata)

/-- What a zone holds. -/
def view (ops : RdataOps) (z : Zone) : View := fun k =>
  (z.find k).map (fun s => (s.ttl, members ops k.type.base s.rdata.1))

/-- All the slabs are in DNSSEC order. -/
def Ordered (ops : RdataOps) (z : Zone) : Prop := ∀ k s, z.find k = some s → InOrder ops k.type.base s.rdata.1

/-- Adding a record: a new rdataset has its TTL. -/
def View.add (ops : RdataOps) (v : View) (k : Key) (ttl : ℕ) (l : List Rdata) : View :=
  update v k (some ((v k).elim (ttl, members ops k.type.base l)
    (fun p => (p.1, p.2 ∪ members ops k.type.base l))))

open Classical in
/-- Deleting a record: an empty rdataset goes. -/
noncomputable def View.del (ops : RdataOps) (v : View) (k : Key) (l : List Rdata) : View :=
  update v k ((v k).bind (fun p =>
    if p.2 \ members ops k.type.base l = ∅ then none else some (p.1, p.2 \ members ops k.type.base l)))

/-- What a tuple says. -/
noncomputable def View.apply (ops : RdataOps) (v : View) (t : DiffTuple) : View :=
  if adds t then v.add ops (tupleKey t) t.ttl [t.rdata] else v.del ops (tupleKey t) [t.rdata]

section views

variable {ops : RdataOps}

theorem view_put (z : Zone) (k : Key) (s : Rdataset) :
    view ops (z.put k s) = update (view ops z) k (some (s.ttl, members ops k.type.base s.rdata.1)) := by
  funext k'
  by_cases h : k' = k
  · subst h
    rw [update_self, view, Zone.find_put_self, map_some]
  · rw [update_of_ne h, view, Zone.find_put_ne s h, view]

theorem view_erase (z : Zone) (k : Key) : view ops (z.erase k) = update (view ops z) k none := by
  funext k'
  by_cases h : k' = k
  · subst h
    rw [update_self, view, Zone.find_erase_self, map_none]
  · rw [update_of_ne h, view, Zone.find_erase_ne h, view]

theorem Ordered.put {z : Zone} (h : Ordered ops z) {k : Key} {s : Rdataset}
    (hs : InOrder ops k.type.base s.rdata.1) : Ordered ops (z.put k s) := by
  intro k' s' hf
  by_cases hk : k' = k
  · subst hk
    rw [Zone.find_put_self] at hf
    cases hf
    exact hs
  · rw [Zone.find_put_ne s hk] at hf
    exact h k' s' hf

theorem Ordered.erase {z : Zone} (h : Ordered ops z) (k : Key) : Ordered ops (z.erase k) := by
  intro k' s' hf
  by_cases hk : k' = k
  · subst hk
    rw [Zone.find_erase_self] at hf
    cases hf
  · rw [Zone.find_erase_ne hk] at hf
    exact h k' s' hf

/-- Adding records to an rdataset one after the other. -/
theorem View.add_add (v : View) (k : Key) (ttl ttl' : ℕ) (l m : List Rdata) :
    (v.add ops k ttl l).add ops k ttl' m = v.add ops k ttl (l ++ m) := by
  unfold View.add
  rw [update_self, update_idem, members_append]
  cases v k with
  | none => rfl
  | some p => rw [elim_some, elim_some, elim_some, Set.union_assoc]

/-- Deleting records from an rdataset one after the other. -/
theorem View.del_del (v : View) (k : Key) (l m : List Rdata) : (v.del ops k l).del ops k m = v.del ops k (l ++ m) := by
  unfold View.del
  rw [update_self, update_idem, members_append]
  congr 1
  obtain _ | p := v k
  · rfl
  simp only [bind_some]
  rw [← Set.sdiff_sdiff]
  split
  next he =>
    rw [he, Set.empty_sdiff, if_pos rfl]
    rfl
  next he => rw [bind_some]

theorem View.add_congr (v : View) (k : Key) (ttl : ℕ)
    (h : members ops k.type.base l = members ops k.type.base m) : v.add ops k ttl l = v.add ops k ttl m := by
  unfold View.add
  rw [h]

theorem View.del_congr (v : View) (k : Key)
    (h : members ops k.type.base l = members ops k.type.base m) : v.del ops k l = v.del ops k m := by
  unfold View.del
  rw [h]

/-- The tuples of one rdatalist, one after the other. -/
theorem foldl_apply_adds {k : Key} {ttl : ℕ} (v : View) : ∀ {ts : Tuples} {l : List Rdata},
    (∀ u ∈ ts, adds u = true ∧ tupleKey u = k) →
    ts.foldl (View.apply ops) (v.add ops k ttl l) = v.add ops k ttl (l ++ ts.map DiffTuple.rdata)
  | [], l, _ => by rw [foldl_nil, map_nil, append_nil]
  | u :: ts, l, h => by
    obtain ⟨hu, hk⟩ := h u mem_cons_self
    rw [foldl_cons, View.apply, if_pos hu, hk, View.add_add,
      foldl_apply_adds v (fun x hx => h x (mem_cons_of_mem u hx)), map_cons, append_assoc]
    rfl

theorem foldl_apply_dels {k : Key} (v : View) : ∀ {ts : Tuples} {l : List Rdata},
    (∀ u ∈ ts, adds u = false ∧ tupleKey u = k) →
    ts.foldl (View.apply ops) (v.del ops k l) = v.del ops k (l ++ ts.map DiffTuple.rdata)
  | [], l, _ => by rw [foldl_nil, map_nil, append_nil]
  | u :: ts, l, h => by
    obtain ⟨hu, hk⟩ := h u mem_cons_self
    rw [foldl_cons, View.apply, hu, if_neg Bool.false_ne_true, hk, View.del_del,
      foldl_apply_dels v (fun x hx => h x (mem_cons_of_mem u hx)), map_cons, append_assoc]
    rfl

end views

/-! ### The database operations on the set of records -/

section operations

variable {env : Env} {z z' : Zone} {k : Key} {ttl : ℕ} {slab : Slab} {r : Result}

theorem mergeRdata_fine (hr : Fine r) {old : Slab} {ottl : ℕ}
    (h : mergeRdata env.ops true ⟨true, true, true⟩ k.type ottl ttl old slab = .error r) :
    ttl = ottl ∧ Slab.merge env.ops k.type.base true old slab true false = .error .unchanged := by
  unfold mergeRdata at h
  split at h
  · cases h
    obtain h | h | h := hr <;> cases h
  next hne =>
    have httl : ttl = ottl := by simpa using hne
    subst httl
    simp only [ne_eq, not_true_eq_false, decide_false] at h
    refine ⟨rfl, ?_⟩
    unfold Slab.merge at h ⊢
    simp only at h ⊢
    split at h
    · cases h
      obtain h | h | h := hr <;> cases h
    next h1 =>
      rw [if_neg h1]
      split at h
      next h2 => rw [if_pos h2]
      split at h
      · cases h
        obtain h | h | h := hr <;> cases h
      split at h
      · cases h
        obtain h | h | h := hr <;> cases h
      split at h
      · rename_i hm
        cases hm
      · cases h

theorem addrdataset_view [TransCmp (env.ops.compare k.type.base)] (hz : Ordered env.ops z)
    (hs : InOrder env.ops k.type.base slab.1) (h : addrdataset env z k ttl slab ⟨true, true, true⟩ = (z', r))
    (hr : Fine r) : Ordered env.ops z' ∧ view env.ops z' = (view env.ops z).add env.ops k ttl slab.1 := by
  have hview : ∀ s, z.find k = some s → view env.ops z k = some (s.ttl, members env.ops k.type.base s.rdata.1) := by
    intro s hs
    rw [view, hs, map_some]
  unfold addrdataset at h
  cases hf : z.find k with
  | none =>
    rw [hf] at h
    cases h
    refine ⟨hz.put hs, ?_⟩
    have hnone : view env.ops z k = none := by rw [view, hf, map_none]
    rw [view_put, View.add, hnone, elim_none]
  | some old =>
    rw [hf] at h
    simp only at h
    cases hm : mergeRdata env.ops true ⟨true, true, true⟩ k.type old.ttl ttl old.rdata slab with
    | error r' =>
      rw [hm] at h
      cases h
      obtain ⟨-, hmerge⟩ := mergeRdata_fine hr hm
      refine ⟨hz, ?_⟩
      rw [View.add, hview old hf, elim_some, merge_unchanged (hz k old hf) hmerge, ← hview old hf,
        update_eq_self]
    | ok m =>
      rw [hm] at h
      cases h
      unfold mergeRdata at hm
      split at hm
      · cases hm
      next hne =>
        have httl : ttl = old.ttl := by simpa using hne
        obtain ⟨hord, hmem⟩ := merge_ok (hz k old hf) hs hm
        refine ⟨hz.put hord, ?_⟩
        rw [view_put, View.add, hview old hf, elim_some, hmem, httl]

theorem subtractrdataset_view [TransCmp (env.ops.compare k.type.base)] (hz : Ordered env.ops z)
    (h : subtractrdataset env z k ttl slab = (z', r)) (hr : Fine r) :
    Ordered env.ops z' ∧ view env.ops z' = (view env.ops z).del env.ops k slab.1 := by
  unfold subtractrdataset at h
  cases hf : z.find k with
  | none =>
    rw [hf] at h
    cases h
    obtain h | h | h := hr <;> cases h
  | some old =>
    have hview : view env.ops z k = some (old.ttl, members env.ops k.type.base old.rdata.1) := by
      rw [view, hf, map_some]
    rw [hf] at h
    simp only at h
    split at h
    · cases h
      obtain h | h | h := hr <;> cases h
    have hkept : members env.ops k.type.base (Slab.kept env.ops k.type.base old.rdata slab) = _ :=
      kept_members old.rdata slab
    cases hm : Slab.subtract env.ops k.type.base true old.rdata slab true with
    | ok rest =>
      rw [hm] at h
      cases h
      have hrest := (subtract_exact hm).1
      have hne : members env.ops k.type.base rest.1 ≠ ∅ := (members_nonempty rest.2).ne_empty
      rw [hrest, hkept] at hne
      refine ⟨hz.put ?_, ?_⟩
      · rw [hrest]
        exact Pairwise.filter _ (hz k old hf)
      · rw [view_put, View.del, hview, bind_some, if_neg hne, hrest, hkept]
    | error r' =>
      obtain rfl | ⟨rfl, hnil, -⟩ := subtract_exact_error hm
      · rw [hm] at h
        cases h
        obtain h | h | h := hr <;> cases h
      rw [hm] at h
      cases h
      refine ⟨hz.erase k, ?_⟩
      have hempty : members env.ops k.type.base old.rdata.1 \ members env.ops k.type.base slab.1 = ∅ := by
        rw [← hkept, hnil]
        ext x
        simp [mem_members]
      rw [view_erase, View.del, hview, bind_some, if_pos hempty]

end operations

/-! ### Applying a diff -/

section apply

variable {env : Env} {t : DiffTuple}

theorem together_iff {u : DiffTuple} : together t u = true ↔ tupleKey t = tupleKey u ∧ t.op = u.op := by
  unfold together tupleKey rrKey
  simp only [Bool.and_eq_true, beq_iff_eq, Name.equal_iff, Key.mk.injEq, RdType.mk.injEq]
  tauto

variable {ts diff : Tuples}

/-- Tuples of which each is together with the next one share the operation and the rdataset. -/
theorem run_of_isChain (h : (t :: ts).IsChain (together · ·)) : ∀ u ∈ ts, tupleKey u = tupleKey t ∧ u.op = t.op := by
  have htrans : Trans (fun a b : DiffTuple => (together a b = true)) (fun a b => together a b = true)
      (fun a b => together a b = true) := by
    constructor
    intro a b c hab hbc
    rw [together_iff] at hab hbc ⊢
    exact ⟨hab.1.trans hbc.1, hab.2.trans hbc.2⟩
  have hpair := isChain_iff_pairwise.1 h
  intro u hu
  have htu := together_iff.1 ((pairwise_cons.1 hpair).1 u hu)
  exact ⟨htu.1.symm, htu.2.symm⟩

/-- The tuples that are collected share the operation and the rdataset. -/
theorem together_of_mem {g : Tuples} (hg : g ∈ diff.splitBy together)
    (he : g = t :: ts) : ∀ u ∈ ts, tupleKey u = tupleKey t ∧ u.op = t.op := by
  have hchain := isChain_of_mem_splitBy hg
  rw [he] at hchain
  exact run_of_isChain hchain

theorem applyGroup_ok {z z' : Zone} (h : applyGroup env z (t :: ts) = .ok z') :
    t.rdclass = env.rdclass ∧ ∃ slab r, fromrdataset env t.type ((t :: ts).map DiffTuple.rdata) = .ok slab ∧ Fine r ∧
      applyOp env z t slab = (z', r) := by
  unfold applyGroup at h
  obtain ⟨u, hclass, h⟩ := bind_eq_ok h
  obtain ⟨slab, hslab, h⟩ := bind_eq_ok h
  simp only at h
  split at h
  next hr =>
    cases h
    exact ⟨by simpa using require_ok hclass, slab, _, hslab, hr, rfl⟩
  · cases h

theorem applyGroup_view (htrans : ∀ type, TransCmp (env.ops.compare type)) {z z' : Zone}
    (hts : ∀ u ∈ ts, tupleKey u = tupleKey t ∧ u.op = t.op) (hz : Ordered env.ops z)
    (h : applyGroup env z (t :: ts) = .ok z') :
    Ordered env.ops z' ∧ view env.ops z' = (t :: ts).foldl (View.apply env.ops) (view env.ops z) := by
  have htype : (tupleKey t).type.base = t.type := rfl
  have _ := htrans t.type
  have _ := htrans (tupleKey t).type.base
  obtain ⟨-, slab, r, hslab, hr, h⟩ := applyGroup_ok h
  obtain ⟨hord, hmem, -⟩ := fromrdataset_ok hslab
  unfold applyOp at h
  rw [foldl_cons, View.apply]
  by_cases ha : adds t = true
  · rw [if_pos ha] at h
    obtain ⟨hz', hview⟩ := addrdataset_view hz hord h hr
    refine ⟨hz', ?_⟩
    rw [if_pos ha, hview, foldl_apply_adds]
    · exact View.add_congr _ _ _ hmem
    · intro u hu
      obtain ⟨hk, hop⟩ := hts u hu
      refine ⟨?_, hk⟩
      rw [← ha, adds, adds, hop]
  rw [if_neg ha] at h
  obtain ⟨hz', hview⟩ := subtractrdataset_view hz h hr
  refine ⟨hz', ?_⟩
  rw [if_neg ha, hview, foldl_apply_dels]
  · exact View.del_congr _ _ hmem
  · intro u hu
    obtain ⟨hk, hop⟩ := hts u hu
    refine ⟨?_, hk⟩
    rw [← Bool.not_eq_true, adds, hop]
    exact ha

/-- The groups of a diff, one after the other: the rule by which a property of a version is carried through a loop over
them. -/
theorem groups_induction {f : Zone → Tuples → Exec Zone} {motive : Tuples → Zone → Prop} {z z' : Zone}
    (hstart : motive [] z) (hstep : ∀ done t ts rest y y', diff = done ++ ((t :: ts) ++ rest) →
      (∀ u ∈ ts, tupleKey u = tupleKey t ∧ u.op = t.op) → motive done y → f y (t :: ts) = .ok y' →
      motive (done ++ (t :: ts)) y') (h : (diff.splitBy together).foldlM f z = .ok z') : motive diff z' := by
  have hloop : ∀ (gs : List Tuples) (done : Tuples) (y : Zone),
      (∀ g ∈ gs, g ∈ diff.splitBy together) → diff = done ++ gs.flatten → motive done y →
      gs.foldlM f y = .ok z' → motive diff z' := by
    intro gs
    induction gs with
    | nil =>
      intro done y _ hd hm hf
      cases hf
      rw [hd, flatten_nil, append_nil]
      exact hm
    | cons g gs ih =>
      intro done y hg hd hm hf
      rw [foldlM_cons] at hf
      obtain ⟨y', hy', hrest⟩ := bind_eq_ok hf
      obtain ⟨t, ts, rfl⟩ := exists_cons_of_ne_nil (ne_nil_of_mem_splitBy (hg g mem_cons_self))
      refine ih (done ++ (t :: ts)) y' (fun x hx => hg x (mem_cons_of_mem _ hx)) ?_ ?_ hrest
      · rw [hd, flatten_cons, append_assoc]
      · exact hstep done t ts gs.flatten y y' hd (together_of_mem (hg _ mem_cons_self) rfl) hm hy'
  exact hloop _ [] z (fun _ => id) (flatten_splitBy together diff).symm hstart h

theorem diffApply_view (htrans : ∀ type, TransCmp (env.ops.compare type)) {z z' : Zone}
    (hz : Ordered env.ops z) (h : diffApply env z diff = .ok z') :
    Ordered env.ops z' ∧ view env.ops z' = diff.foldl (View.apply env.ops) (view env.ops z) := by
  refine groups_induction (motive := fun done y => Ordered env.ops y ∧
    view env.ops y = done.foldl (View.apply env.ops) (view env.ops z)) ⟨hz, rfl⟩ ?_ h
  intro done t ts rest y y' _ hts hm hy
  obtain ⟨hord, hview⟩ := applyGroup_view htrans hts hm.1 hy
  refine ⟨hord, ?_⟩
  rw [hview, hm.2, foldl_append]

/-! ### One rdataset of the zone -/

/-- An operation changes the rdataset of its key only. -/
theorem applyOp_find_ne {z : Zone} {slab : Slab} {k : Key} (hk : k ≠ tupleKey t) :
    (applyOp env z t slab).1.find k = z.find k := by
  unfold applyOp
  split
  · unfold addrdataset
    split
    · exact Zone.find_put_ne _ hk
    split
    · rfl
    · exact Zone.find_put_ne _ hk
  unfold subtractrdataset
  split
  · rfl
  split
  · rfl
  split
  · exact Zone.find_put_ne _ hk
  · exact Zone.find_erase_ne hk
  · rfl

theorem applyGroup_find_ne {z z' : Zone} {k : Key} (hk : k ≠ tupleKey t)
    (h : applyGroup env z (t :: ts) = .ok z') : z'.find k = z.find k := by
  obtain ⟨-, slab, r, -, -, h⟩ := applyGroup_ok h
  have he : (applyOp env z t slab).1.find k = z.find k := applyOp_find_ne hk
  rwa [h] at he

theorem fromrdataset_singleton {type : UInt16} {r : Rdata} {slab : Slab} (h : fromrdataset env type [r] = .ok slab) :
    slab = ⟨[r], cons_ne_nil r []⟩ := by
  have hsort : env.qsort.sort (env.ops.compare type) [r] = [r] := perm_singleton.1 (env.qsort.perm _ [r])
  apply Subtype.ext
  rw [fromrdataset_eq h, hsort]
  rfl

/-- Deleting a record from an rdataset of one record: the rdataset goes. -/
theorem applyGroup_del_one {z z' : Zone} {s : Rdataset} (ht : adds t = false)
    (hf : z.find (tupleKey t) = some s) (hs : s.rdata.1.length = 1) (h : applyGroup env z [t] = .ok z') :
    z'.find (tupleKey t) = none := by
  obtain ⟨-, slab, r, hslab, hr, h⟩ := applyGroup_ok h
  have hone : slab.1.length = 1 := by
    rw [fromrdataset_singleton hslab]
    rfl
  unfold applyOp at h
  rw [ht, if_neg Bool.false_ne_true] at h
  unfold subtractrdataset at h
  rw [hf] at h
  simp only at h
  split at h
  · cases h
    obtain h | h | h := hr <;> cases h
  cases hm : Slab.subtract env.ops (tupleKey t).type.base true s.rdata slab true with
  | ok rest =>
    have hlen := (subtract_exact hm).2
    have hpos := length_pos_of_ne_nil rest.2
    omega
  | error r' =>
    obtain rfl | ⟨rfl, -, -⟩ := subtract_exact_error hm
    · rw [hm] at h
      cases h
      obtain h | h | h := hr <;> cases h
    rw [hm] at h
    cases h
    exact Zone.find_erase_self z _

/-- Adding a record where there is none. -/
theorem applyGroup_add_one {z z' : Zone} (ht : adds t = true) (hf : z.find (tupleKey t) = none)
    (h : applyGroup env z [t] = .ok z') : z'.find (tupleKey t) = some ⟨t.ttl, [t.rdata], cons_ne_nil _ _⟩ := by
  obtain ⟨-, slab, r, hslab, hr, h⟩ := applyGroup_ok h
  unfold applyOp at h
  rw [ht, if_pos rfl] at h
  unfold addrdataset at h
  rw [hf] at h
  cases h
  rw [Zone.find_put_self, fromrdataset_singleton hslab]

/-! ### Failures -/

theorem fromrdataset_ne_assertion (type : UInt16) (l : List Rdata) : fromrdataset env type l ≠ .error .assertion := by
  unfold fromrdataset
  simp only
  split
  · exact fun h => by cases h
  split
  · exact fun h => by cases h
  split
  · exact fun h => by cases h
  · exact fun h => by cases h

theorem applyGroup_ne_assertion {z : Zone} (ht : t.rdclass = env.rdclass) :
    applyGroup env z (t :: ts) ≠ .error .assertion := by
  rw [applyGroup, require_true (by rw [ht]; exact beq_self_eq_true _), ok_then]
  cases hs : fromrdataset env t.type ((t :: ts).map DiffTuple.rdata) with
  | error e =>
    intro h
    cases h
    exact fromrdataset_ne_assertion _ _ hs
  | ok slab =>
    simp only [ok_then]
    split
    · exact fun h => by cases h
    · exact fun h => by cases h

theorem foldlM_ne_assertion {f : Zone → Tuples → Exec Zone} {z : Zone}
    (hf : ∀ y t ts, t ∈ diff → f y (t :: ts) ≠ .error .assertion) :
    (diff.splitBy together).foldlM f z ≠ .error .assertion := by
  have hloop : ∀ (gs : List Tuples) (y : Zone), (∀ g ∈ gs, g ∈ diff.splitBy together) →
      gs.foldlM f y ≠ .error .assertion := by
    intro gs
    induction gs with
    | nil => exact fun y _ h => by cases h
    | cons g gs ih =>
      intro y hg
      have hmem := hg g mem_cons_self
      rw [foldlM_cons]
      cases hy : f y g with
      | error e =>
        intro he
        cases he
        obtain ⟨t, ts, rfl⟩ := exists_cons_of_ne_nil (ne_nil_of_mem_splitBy hmem)
        refine hf y t ts ?_ hy
        rw [← flatten_splitBy together diff]
        exact mem_flatten_of_mem hmem mem_cons_self
      | ok y' => exact ih y' (fun x hx => hg x (mem_cons_of_mem g hx))
  exact hloop _ z (fun _ => id)

theorem diffApply_ne_assertion {z : Zone} (h : ∀ t ∈ diff, t.rdclass = env.rdclass) :
    diffApply env z diff ≠ .error .assertion :=
  foldlM_ne_assertion (fun _ t _ ht => applyGroup_ne_assertion (h t ht))

/-! ### Where the records of a zone come from -/

/-- Every record of the zone is in `S`. -/
def Within (S : Key → Rdata → Prop) (z : Zone) : Prop := ∀ k s, z.find k = some s → ∀ r ∈ s.rdata.1, S k r

variable {S : Key → Rdata → Prop}

theorem Within.mono {S' : Key → Rdata → Prop} {z : Zone} (h : Within S z) (hS : ∀ k r, S k r → S' k r) : Within S' z :=
  fun k s hf r hr => hS k r (h k s hf r hr)

theorem Within.nil : Within S [] := fun _ _ hf => by cases hf

theorem Within.put {z : Zone} (h : Within S z) {k : Key} {s : Rdataset} (hs : ∀ r ∈ s.rdata.1, S k r) :
    Within S (z.put k s) := by
  intro k' s' hf
  by_cases hk : k' = k
  · subst hk
    rw [Zone.find_put_self] at hf
    cases hf
    exact hs
  · rw [Zone.find_put_ne s hk] at hf
    exact h k' s' hf

theorem Within.erase {z : Zone} (h : Within S z) (k : Key) : Within S (z.erase k) := by
  intro k' s' hf
  by_cases hk : k' = k
  · subst hk
    rw [Zone.find_erase_self] at hf
    cases hf
  · rw [Zone.find_erase_ne hk] at hf
    exact h k' s' hf

theorem mem_of_mem_dedup {α : Type} {cmp : α → α → Ordering} {x : α} : ∀ {l : List α}, x ∈ dedup cmp l → x ∈ l
  | [], h => h
  | [_], h => h
  | a :: b :: l, h => by
    rw [dedup] at h
    split at h
    · exact mem_cons_of_mem a (mem_of_mem_dedup h)
    obtain rfl | h := mem_cons.1 h
    · exact mem_cons_self
    · exact mem_cons_of_mem a (mem_of_mem_dedup h)

theorem mem_of_mem_slab {type : UInt16} {slab : Slab} (h : fromrdataset env type l = .ok slab) {x : Rdata}
    (hx : x ∈ slab.1) : x ∈ l := by
  rw [fromrdataset_eq h] at hx
  exact (env.qsort.perm _ l).mem_iff.1 (mem_of_mem_dedup hx)

theorem Within.addrdataset {z : Zone} (h : Within S z) {k : Key} {ttl : ℕ} {slab : Slab} {o : AddOptions}
    (hs : ∀ r ∈ slab.1, S k r) : Within S (addrdataset env z k ttl slab o).1 := by
  unfold ZoneDb.addrdataset
  cases hf : z.find k with
  | none => exact h.put hs
  | some old =>
    simp only
    cases hm : mergeRdata env.ops true o k.type old.ttl ttl old.rdata slab with
    | error r => exact h
    | ok m =>
      refine h.put (fun r hr => ?_)
      unfold mergeRdata at hm
      split at hm
      · cases hm
      rw [merge_eq hm, mem_mergeLoop] at hr
      obtain hr | hr := hr
      · exact h k old hf r hr
      · exact hs r (mem_of_mem_filter hr)

theorem Within.subtractrdataset {z : Zone} (h : Within S z) {k : Key} {ttl : ℕ} {slab : Slab} :
    Within S (subtractrdataset env z k ttl slab).1 := by
  unfold ZoneDb.subtractrdataset
  cases hf : z.find k with
  | none => exact h
  | some old =>
    simp only
    split
    · exact h
    cases hm : Slab.subtract env.ops k.type.base true old.rdata slab true with
    | ok rest =>
      refine h.put (fun r hr => ?_)
      rw [(subtract_exact hm).1] at hr
      exact h k old hf r (mem_of_mem_filter hr)
    | error r =>
      obtain rfl | ⟨rfl, -, -⟩ := subtract_exact_error hm
      · exact h
      · exact h.erase k

theorem group_within {slab : Slab} (hslab : fromrdataset env t.type ((t :: ts).map DiffTuple.rdata) = .ok slab)
    (hts : ∀ u ∈ ts, tupleKey u = tupleKey t ∧ u.op = t.op) (hsub : ∀ u ∈ t :: ts, u ∈ diff)
    (hdiff : ∀ u ∈ diff, S (tupleKey u) u.rdata) : ∀ r ∈ slab.1, S (tupleKey t) r := by
  intro r hr
  obtain ⟨u, hu, rfl⟩ := mem_map.1 (mem_of_mem_slab hslab hr)
  have hk : tupleKey u = tupleKey t := by
    obtain rfl | hu := mem_cons.1 hu
    · rfl
    · exact (hts u hu).1
  rw [← hk]
  exact hdiff u (hsub u hu)

theorem Within.diffApply {z z' : Zone} (h : Within S z) (hdiff : ∀ t ∈ diff, S (tupleKey t) t.rdata)
    (hok : diffApply env z diff = .ok z') : Within S z' := by
  refine groups_induction (motive := fun _ y => Within S y) h ?_ hok
  intro done t ts rest y y' hd hts hy hgroup
  obtain ⟨-, slab, r, hslab, -, hop⟩ := applyGroup_ok hgroup
  have hsub : ∀ u ∈ t :: ts, u ∈ diff := by
    intro u hu
    rw [hd]
    exact mem_append_right _ (mem_append_left _ hu)
  have hy' : y' = (applyOp env y t slab).1 := by rw [hop]
  rw [hy']
  unfold applyOp
  split
  · exact hy.addrdataset (group_within hslab hts hsub hdiff)
  · exact hy.subtractrdataset

end apply

end Bind9.ZoneDb
