import Bind9.DbDiff
import Bind9.Lib.MergeJoin

/-! # The difference of two databases is exact

The loops of `dns_diff_subtract` and `diff_namespace` are two instances of one merge (`MergeJoin.join`), over tuples and
over nodes.  So the tuples that `dns_db_diffx` writes are, in some order, an addition for every record of the first
database that the second does not have with the same TTL, and a deletion the other way round. -/

namespace Bind9

open List

namespace Diff

/-- Whether a record is one that the NSEC3 tree is for. -/
def Rr.isNsec3 (r : Rr) : Prop := r.type = nsec3 ∨ DbDiff.rdataCovers r.type r.rdata = nsec3.toNat

/-- The records in both lists up to case, TTL included. -/
def Rr.equiv (ops : RdataOps) (r s : Rr) : Prop := r.same ops s = true ∧ r.ttl = s.ttl

end Diff

namespace DbDiff

open Diff

variable {ops : RdataOps}

/-! ### Records -/

def Node.rrs (n : Node ops) : List Rr :=
  n.rdatasets.flatMap (fun s => s.rdata.map (fun r => ⟨n.name, s.ttl, s.rdclass, s.type, r⟩))

def Tree.rrs (t : Tree ops) : List Rr := t.nodes.flatMap Node.rrs

/-- The records of a database version. -/
def Contents.rrs (c : Contents ops) : List Rr := c.tree.rrs ++ c.nsec3.rrs

variable (ops) in
/-- A list of records has a record, with the same TTL. -/
def has (rrs : List Rr) (r : Rr) : Bool := rrs.any (fun s => r.same ops s && r.ttl == s.ttl)

theorem getNameDiff_eq (op : DiffOp) (n : Node ops) : getNameDiff op n = n.rrs.map (Rr.tuple op) := by
  simp only [getNameDiff, Node.rrs, map_flatMap, map_map]
  rfl

theorem Lawful.same_refl (hl : Lawful ops) (r : Rr) : r.same ops r = true := by
  have := hl.trans r.type
  exact Rr.same_iff.2 ⟨rfl, rfl, rfl, Std.ReflCmp.compare_self⟩

variable {r s : Rr}

theorem Lawful.same_symm (hl : Lawful ops) (h : r.same ops s = true) : s.same ops r = true := by
  obtain ⟨hn, hcl, ht, hc⟩ := Rr.same_iff.1 h
  have := hl.trans r.type
  refine Rr.same_iff.2 ⟨hn.symm, hcl.symm, ht.symm, ?_⟩
  rw [← ht]
  exact Std.OrientedCmp.eq_comm.1 hc

theorem Lawful.same_trans (hl : Lawful ops) {t : Rr} (h : r.same ops s = true) (h' : s.same ops t = true) :
    r.same ops t = true := by
  obtain ⟨hn, hcl, ht, hc⟩ := Rr.same_iff.1 h
  obtain ⟨hn', hcl', ht', hc'⟩ := Rr.same_iff.1 h'
  have := hl.trans r.type
  rw [← ht] at hc'
  exact Rr.same_iff.2 ⟨hn.trans hn', hcl.trans hcl', ht.trans ht', Std.TransCmp.eq_trans hc hc'⟩

/-- Records of one name with different types or different covered types are not the same. -/
theorem Node.rrs_distinct (hl : Lawful ops) (n : Node ops) : n.rrs.Pairwise (fun r s => ¬r.same ops s = true) := by
  rw [Node.rrs, pairwise_flatMap]
  constructor
  · intro s hs
    rw [pairwise_map]
    refine s.distinct.imp (fun hab h => hab ?_)
    exact (Rr.same_iff.1 h).2.2.2
  · refine n.types.imp_of_mem (fun {s t} hs ht hne r hr u hu h => hne ?_)
    obtain ⟨x, hx, rfl⟩ := mem_map.1 hr
    obtain ⟨y, hy, rfl⟩ := mem_map.1 hu
    obtain ⟨-, -, htype, hc⟩ := Rr.same_iff.1 h
    refine ⟨htype, ?_⟩
    have hcov := hl.covers _ _ _ hc
    rw [s.covered x hx] at hcov
    rw [hcov, ← t.covered y hy]
    exact congrArg (fun ty => rdataCovers ty y) htype

variable {n m : Node ops}

theorem Node.name_of_mem (h : r ∈ n.rrs) : r.name = n.name := by
  obtain ⟨s, -, hr⟩ := mem_flatMap.1 h
  obtain ⟨x, -, rfl⟩ := mem_map.1 hr
  rfl

theorem Tree.rrs_distinct (hl : Lawful ops) (t : Tree ops) : t.rrs.Pairwise (fun r s => ¬r.same ops s = true) := by
  rw [Tree.rrs, pairwise_flatMap]
  refine ⟨fun n _ => n.rrs_distinct hl, t.sorted.imp (fun {m n} hlt r hr s hs h => ?_)⟩
  have hkey : m.name.orderKey = n.name.orderKey := by
    rw [Name.orderKey_inj, ← Node.name_of_mem hr, ← Node.name_of_mem hs]
    exact (Rr.same_iff.1 h).1
  have hsign := Name.sign_compare m.name n.name
  rw [hkey, Std.ReflOrd.compare_self, compare_eq_iff_eq] at hsign
  omega

theorem Node.isNsec3_of_mem (h : r ∈ n.rrs) : ∃ s ∈ n.rdatasets, (r.isNsec3 ↔ s.isNsec3) := by
  obtain ⟨s, hs, hr⟩ := mem_flatMap.1 h
  obtain ⟨x, hx, rfl⟩ := mem_map.1 hr
  refine ⟨s, hs, ?_⟩
  rw [Rr.isNsec3, Rdataset.isNsec3, s.covered x hx]

theorem Contents.plain_of_mem (c : Contents ops) (h : r ∈ c.tree.rrs) : ¬r.isNsec3 := by
  obtain ⟨n, hn, hr⟩ := mem_flatMap.1 h
  obtain ⟨s, hs, hiff⟩ := Node.isNsec3_of_mem hr
  exact fun hc => c.plain n hn s hs (hiff.1 hc)

theorem Contents.chain_of_mem (c : Contents ops) (h : r ∈ c.nsec3.rrs) : r.isNsec3 := by
  obtain ⟨n, hn, hr⟩ := mem_flatMap.1 h
  obtain ⟨s, hs, hiff⟩ := Node.isNsec3_of_mem hr
  exact hiff.2 (c.chain n hn s hs)

theorem Lawful.isNsec3_congr (hl : Lawful ops) (h : r.same ops s = true) : r.isNsec3 ↔ s.isNsec3 := by
  obtain ⟨-, -, ht, hc⟩ := Rr.same_iff.1 h
  rw [Rr.isNsec3, Rr.isNsec3, hl.covers _ _ _ hc, ht]

theorem Contents.rrs_distinct (hl : Lawful ops) (c : Contents ops) : c.rrs.Pairwise (fun r s => ¬r.same ops s = true) := by
  rw [Contents.rrs, pairwise_append]
  refine ⟨c.tree.rrs_distinct hl, c.nsec3.rrs_distinct hl, fun r hr s hs h => ?_⟩
  exact c.plain_of_mem hr ((hl.isNsec3_congr h).2 (c.chain_of_mem hs))

/-! ### The merge of the tuples of one name -/

/-- Ordering by a number first. -/
theorem ite_compare {a b : UInt16} {x y : ℕ} (o : Ordering) (hx : x = a.toNat) (hy : y = b.toNat) :
    (if a ≠ b then compare x y else o) = (compare x y).then o := by
  subst hx hy
  split
  next hne =>
    have h : compare a.toNat b.toNat ≠ .eq := fun he => hne (UInt16.toNat_inj.1 (compare_eq_iff_eq.1 he))
    cases hc : compare a.toNat b.toNat with
    | eq => exact absurd hc h
    | lt | gt => rfl
  next he => rw [not_not.1 he, compare_eq_iff_eq.2 rfl, Ordering.eq_then]

variable (ops) in
/-- The comparison of two tuples of one type: `dns_rdata_compare`. -/
def classOrder (type : UInt16) (a b : DiffTuple) : Ordering :=
  (compare a.rdclass.toNat b.rdclass.toNat).then (ops.compare type a.rdata b.rdata)

theorem rdataOrder_eq (a b : DiffTuple) :
    rdataOrder ops a b = (compare b.type.toNat a.type.toNat).then (classOrder ops a.type a b) := by
  rw [rdataOrder, ite_compare _ rfl rfl, ite_compare _ rfl rfl, classOrder]

theorem Lawful.classOrder_trans (hl : Lawful ops) (type : UInt16) : Std.TransCmp (classOrder ops type) where
  eq_swap {a b} := by
    have := hl.trans type
    have hclass : compare a.rdclass.toNat b.rdclass.toNat = (compare b.rdclass.toNat a.rdclass.toNat).swap :=
      Std.OrientedCmp.eq_swap
    have hdata : ops.compare type a.rdata b.rdata = (ops.compare type b.rdata a.rdata).swap := Std.OrientedCmp.eq_swap
    rw [classOrder, classOrder, Ordering.swap_then, hclass, hdata]
  isLE_trans {a b c} hab hbc := by
    have := hl.trans type
    rw [classOrder, Ordering.isLE_then_iff_or, compare_lt_iff_lt, compare_eq_iff_eq] at hab hbc ⊢
    obtain hab | ⟨heq, hab⟩ := hab
    · exact .inl (by omega)
    obtain hbc | ⟨heq', hbc⟩ := hbc
    · exact .inl (by omega)
    · exact .inr ⟨heq.trans heq', Std.TransCmp.isLE_trans hab hbc⟩

theorem Lawful.rdataOrder_trans (hl : Lawful ops) : Std.TransCmp (rdataOrder ops) where
  eq_swap {a b} := by
    have hswap : compare a.type.toNat b.type.toNat = (compare b.type.toNat a.type.toNat).swap := Std.OrientedCmp.eq_swap
    rw [rdataOrder_eq, rdataOrder_eq, Ordering.swap_then, hswap, Ordering.swap_swap]
    cases hc : compare b.type.toNat a.type.toNat with
    | lt | gt => rfl
    | eq =>
      have := hl.classOrder_trans a.type
      rw [Ordering.eq_then, Ordering.eq_then, UInt16.toNat_inj.1 (compare_eq_iff_eq.1 hc)]
      exact Std.OrientedCmp.eq_swap
  isLE_trans {a b c} hab hbc := by
    have := hl.classOrder_trans a.type
    rw [rdataOrder_eq, Ordering.isLE_then_iff_or, compare_lt_iff_lt, compare_eq_iff_eq, UInt16.toNat_inj] at hab hbc ⊢
    obtain hab | ⟨hba, hab⟩ := hab
    · obtain hbc | ⟨hcb, -⟩ := hbc
      · exact .inl (hbc.trans hab)
      · exact .inl (by rw [hcb]; exact hab)
    rw [hba] at hbc
    obtain hbc | ⟨hcb, hbc⟩ := hbc
    · exact .inl hbc
    · exact .inr ⟨hcb, Std.TransCmp.isLE_trans hab hbc⟩

theorem subtractLoop_eq (r d0 d1 : Tuples) : subtractLoop ops r d0 d1 =
    r ++ MergeJoin.join (rdataOrder ops) (fun p => [p]) (fun p => [p])
      (fun p0 p1 => if p0.ttl ≠ p1.ttl then [p0, p1] else []) d0 d1 := by
  fun_induction subtractLoop ops r d0 d1 with
  | case1 r => simp [MergeJoin.join]
  | case2 r p0 d0 ih => rw [ih, MergeJoin.join, append_assoc]
  | case3 r p1 d1 ih => rw [ih, MergeJoin.join, MergeJoin.join, flatMap_cons, append_assoc]
  | case4 r p0 d0 p1 d1 h ih => rw [ih, MergeJoin.join_of_lt h, append_assoc]
  | case5 r p0 d0 p1 d1 h ih => rw [ih, MergeJoin.join_of_gt h, append_assoc]
  | case6 r p0 d0 p1 d1 h ih =>
    simp only [dite_eq_ite] at ih
    rw [ih, MergeJoin.join_of_eq h]
    split
    · simp
    · rfl

theorem Lawful.sort_strict (hl : Lawful ops) (q : Qsort) {d : Tuples}
    (hd : d.Pairwise (fun a b => rdataOrder ops a b ≠ .eq)) :
    (q.sort (rdataOrder ops) d).Pairwise (fun a b => rdataOrder ops a b = .lt) := by
  have := hl.rdataOrder_trans
  have hne : (q.sort (rdataOrder ops) d).Pairwise (fun a b => rdataOrder ops a b ≠ .eq) :=
    ((q.perm _ d).pairwise_iff (fun h he => h (Std.OrientedCmp.eq_comm.1 he))).2 hd
  refine (hne.and (q.sorted _ d)).imp (fun {a b} h => ?_)
  obtain ⟨hne, hle⟩ := h
  cases hc : rdataOrder ops a b with
  | lt => rfl
  | eq => exact absurd hc hne
  | gt => rw [hc] at hle; cases hle

theorem Lawful.subtract_perm (hl : Lawful ops) (q : Qsort) {d0 d1 : Tuples} (r : Tuples)
    (h0 : d0.Pairwise (fun a b => rdataOrder ops a b ≠ .eq)) (h1 : d1.Pairwise (fun a b => rdataOrder ops a b ≠ .eq)) :
    ∃ out, subtract ops q d0 d1 r = r ++ out ∧
      out.Perm (d0.filter (fun t => !d1.any (fun u => rdataOrder ops t u == .eq && !(t.ttl != u.ttl))) ++
        d1.filter (fun t => !d0.any (fun u => rdataOrder ops t u == .eq && !(t.ttl != u.ttl)))) := by
  have := hl.rdataOrder_trans
  refine ⟨_, subtractLoop_eq r _ _, ?_⟩
  have hs0 := hl.sort_strict q h0
  have hs1 := hl.sort_strict q h1
  let share : DiffTuple → DiffTuple → Tuples := fun t u => if t.ttl != u.ttl then [t] else []
  have hjoin := MergeJoin.join_perm (fun p => [p]) (fun p => [p])
    (fun p0 p1 => if p0.ttl ≠ p1.ttl then [p0, p1] else []) share share hs0 hs1 ?_
  · rw [MergeJoin.flatMap_part_filter _ hs1, MergeJoin.flatMap_part_filter _ hs0] at hjoin
    refine hjoin.trans (Perm.append ?_ ?_)
    · simp only [(q.perm (rdataOrder ops) d1).any_eq]
      exact (q.perm _ d0).filter _
    · simp only [(q.perm (rdataOrder ops) d0).any_eq]
      exact (q.perm _ d1).filter _
  · intro x _ y _ _
    simp only [share, bne_iff_ne]
    by_cases ht : x.ttl = y.ttl
    · simp [ht]
    · rw [if_pos ht, if_pos ht, if_pos (Ne.symm ht)]
      exact .refl _

theorem rdataOrder_tuple {op op' : DiffOp} (hn : r.name.lower = s.name.lower) :
    (rdataOrder ops (r.tuple op) (s.tuple op') == .eq) = r.same ops s := by
  rw [Bool.eq_iff_iff, beq_iff_eq, rdataOrder_eq, classOrder, Rr.same_iff, Ordering.then_eq_eq, Ordering.then_eq_eq,
    compare_eq_iff_eq, compare_eq_iff_eq, UInt16.toNat_inj, UInt16.toNat_inj]
  exact ⟨fun h => ⟨hn, h.2.1, h.1.symm, h.2.2⟩, fun h => ⟨h.2.2.1.symm, h.2.1, h.2.2.2⟩⟩

theorem Node.diff_distinct (hl : Lawful ops) (op : DiffOp) (n : Node ops) :
    (getNameDiff op n).Pairwise (fun a b => rdataOrder ops a b ≠ .eq) := by
  rw [getNameDiff_eq, pairwise_map]
  refine (n.rrs_distinct hl).imp_of_mem (fun {r s} hr hs h he => h ?_)
  rw [← rdataOrder_tuple (by rw [Node.name_of_mem hr, Node.name_of_mem hs]), beq_iff_eq]
  exact he

theorem filter_tuples {op op' : DiffOp} (hn : n.name.lower = m.name.lower) :
    (getNameDiff op n).filter (fun t => !(getNameDiff op' m).any (fun u => rdataOrder ops t u == .eq &&
      !(t.ttl != u.ttl))) = (n.rrs.filter (fun r => !has ops m.rrs r)).map (Rr.tuple op) := by
  rw [getNameDiff_eq, getNameDiff_eq, filter_map]
  congr 1
  refine filter_congr (fun r hr => ?_)
  simp only [Function.comp_apply, any_map, has]
  congr 1
  rw [Bool.eq_iff_iff, any_eq_true, any_eq_true]
  refine exists_congr (fun s => and_congr_right (fun hs => ?_))
  have hname : r.name.lower = s.name.lower := by rw [Node.name_of_mem hr, Node.name_of_mem hs, hn]
  rw [Function.comp_apply, rdataOrder_tuple hname, bne, Bool.not_not]
  exact Iff.rfl

/-- The records of one name in both databases: the tuples for what is not in both. -/
theorem Lawful.subtract_nodes (hl : Lawful ops) (q : Qsort) (hn : n.name.lower = m.name.lower) (r : Tuples) :
    ∃ out, subtract ops q (getNameDiff .add n) (getNameDiff .del m) r = r ++ out ∧
      out.Perm ((n.rrs.filter (fun r => !has ops m.rrs r)).map (Rr.tuple .add) ++
        (m.rrs.filter (fun r => !has ops n.rrs r)).map (Rr.tuple .del)) := by
  obtain ⟨out, hout, hp⟩ := hl.subtract_perm q r (n.diff_distinct hl .add) (m.diff_distinct hl .del)
  rw [filter_tuples hn, filter_tuples hn.symm] at hp
  exact ⟨out, hout, hp⟩

/-! ### The merge of the names -/

def nodeOrder (n m : Node ops) : Ordering := compare (n.name.compare m.name) 0

theorem nodeOrder_eq (n m : Node ops) : nodeOrder n m = compareOn (fun x : Node ops => x.name.orderKey) n m :=
  Name.sign_compare n.name m.name

instance nodeOrder_trans : Std.TransCmp (nodeOrder : Node ops → Node ops → Ordering) := by
  have h : (nodeOrder : Node ops → Node ops → Ordering) = compareOn (fun x : Node ops => x.name.orderKey) :=
    funext (fun n => funext (fun m => nodeOrder_eq n m))
  rw [h]
  infer_instance

theorem nodeOrder_eq_iff : nodeOrder n m = .eq ↔ n.name.lower = m.name.lower := by
  rw [nodeOrder_eq, ← Name.orderKey_inj, compareOn, Std.LawfulEqOrd.compare_eq_iff_eq]

theorem Tree.nodes_sorted (t : Tree ops) : t.nodes.Pairwise (fun n m => nodeOrder n m = .lt) :=
  t.sorted.imp (fun h => compare_lt_iff_lt.2 h)

/-- What one side of the loop stands for: the nodes it has still to write. -/
inductive Side.Holds (op : DiffOp) : Side ops → List (Node ops) → Prop
  | idle (dbit : List (Node ops)) (fixname : Name) : Side.Holds op ⟨dbit, false, fixname, []⟩ dbit
  | busy (n : Node ops) (dbit : List (Node ops)) :
      Side.Holds op ⟨dbit, true, n.name, getNameDiff op n⟩ (n :: dbit)

theorem Side.Holds.fetch_nil {op : DiffOp} {s : Side ops} (h : Side.Holds op s []) : s.fetch op = s ∧ s.have_ = false ∧
    s.diff = [] := by
  cases h with
  | idle fixname => exact ⟨rfl, rfl, rfl⟩

theorem Side.Holds.fetch_cons {op : DiffOp} {s : Side ops} {ns : List (Node ops)}
    (h : Side.Holds op s (n :: ns)) : s.fetch op = ⟨ns, true, n.name, getNameDiff op n⟩ := by
  cases h with
  | idle dbit fixname => rfl
  | busy n dbit => rfl

theorem subtract_append (q : Qsort) (d0 d1 r : Tuples) : subtract ops q d0 d1 r = r ++ subtract ops q d0 d1 [] := by
  rw [subtract, subtract, subtractLoop_eq, subtractLoop_eq [], nil_append]

/-- What the two databases give together at a name that both have. -/
def bothDiff (q : Qsort) (n m : Node ops) : Tuples := subtract ops q (getNameDiff .add n) (getNameDiff .del m) []

/-- One round of the loop of `diff_namespace`, for the two sides after the fetch. -/
def namespaceRound (q : Qsort) (a b : Side ops) (r : Tuples) :
    Exec (Side ops × Side ops × Tuples) :=
  match a.have_, b.have_ with
  | false, false => do
    require (decide (a.diff = []))
    require (decide (b.diff = []))
    pure (a, b, r)
  | true, false => namespaceLoop q a.taken b (r ++ a.diff)
  | false, true => namespaceLoop q a b.taken (r ++ b.diff)
  | true, true =>
    match compare (a.fixname.compare b.fixname) 0 with
    | .lt => namespaceLoop q a.taken b (r ++ a.diff)
    | .gt => namespaceLoop q a b.taken (r ++ b.diff)
    | .eq => namespaceLoop q a.taken b.taken (subtract ops q a.diff b.diff r)

theorem namespaceLoop_round (q : Qsort) (a b : Side ops) (r : Tuples) :
    namespaceLoop q a b r = namespaceRound q (a.fetch .add) (b.fetch .del) r := by
  rw [namespaceLoop, namespaceRound]
  split
  next ha hb => simp only [ha, hb]
  next ha hb => simp only [ha, hb]
  next ha hb => simp only [ha, hb]
  -- the two definitions may carry matchers of their own for the comparison
  next ha hb =>
    rewrite [ha, hb]
    rfl

theorem namespaceLoop_eq (q : Qsort) : ∀ (ns ms : List (Node ops)) (a b : Side ops) (r : Tuples),
    Side.Holds .add a ns → Side.Holds .del b ms → ∃ a' b' : Side ops,
      namespaceLoop q a b r =
        .ok (a', b', r ++ MergeJoin.join nodeOrder (getNameDiff .add) (getNameDiff .del) (bothDiff q) ns ms) ∧
      a'.diff = [] ∧ b'.diff = []
  | [], [], a, b, r, ha, hb => by
    obtain ⟨hfa, hha, hda⟩ := ha.fetch_nil
    obtain ⟨hfb, hhb, hdb⟩ := hb.fetch_nil
    refine ⟨a, b, ?_, hda, hdb⟩
    rw [namespaceLoop_round, hfa, hfb, namespaceRound]
    simp only [hha, hhb, hda, hdb, decide_true, require_true, ok_then, MergeJoin.join, flatMap_nil, append_nil]
    rfl
  | n :: ns, [], a, b, r, ha, hb => by
    obtain ⟨hfb, hhb, hdb⟩ := hb.fetch_nil
    obtain ⟨a', b', hrun, hd⟩ := namespaceLoop_eq q ns [] ⟨ns, false, n.name, []⟩ b (r ++ getNameDiff .add n)
      (.idle ns n.name) hb
    refine ⟨a', b', ?_, hd⟩
    rw [namespaceLoop_round, ha.fetch_cons, hfb, namespaceRound]
    simp only [hhb]
    rw [Side.taken, hrun, MergeJoin.join, append_assoc]
  | [], m :: ms, a, b, r, ha, hb => by
    obtain ⟨hfa, hha, hda⟩ := ha.fetch_nil
    obtain ⟨a', b', hrun, hd⟩ := namespaceLoop_eq q [] ms a ⟨ms, false, m.name, []⟩ (r ++ getNameDiff .del m)
      ha (.idle ms m.name)
    refine ⟨a', b', ?_, hd⟩
    rw [namespaceLoop_round, hfa, hb.fetch_cons, namespaceRound]
    simp only [hha]
    rw [Side.taken, hrun, MergeJoin.join, MergeJoin.join, flatMap_cons, append_assoc]
  | n :: ns, m :: ms, a, b, r, ha, hb => by
    rw [namespaceLoop_round, ha.fetch_cons, hb.fetch_cons, namespaceRound]
    have horder : compare (n.name.compare m.name) 0 = nodeOrder n m := rfl
    cases hc : nodeOrder n m with
    | lt =>
      obtain ⟨a', b', hrun, hd⟩ := namespaceLoop_eq q ns (m :: ms) ⟨ns, false, n.name, []⟩
        ⟨ms, true, m.name, getNameDiff .del m⟩ (r ++ getNameDiff .add n) (.idle ns n.name) (.busy m ms)
      refine ⟨a', b', ?_, hd⟩
      simp only [horder, hc]
      rw [Side.taken, hrun, MergeJoin.join_of_lt hc, append_assoc]
    | gt =>
      obtain ⟨a', b', hrun, hd⟩ := namespaceLoop_eq q (n :: ns) ms ⟨ns, true, n.name, getNameDiff .add n⟩
        ⟨ms, false, m.name, []⟩ (r ++ getNameDiff .del m) (.busy n ns) (.idle ms m.name)
      refine ⟨a', b', ?_, hd⟩
      simp only [horder, hc]
      rw [Side.taken, hrun, MergeJoin.join_of_gt hc, append_assoc]
    | eq =>
      obtain ⟨a', b', hrun, hd⟩ := namespaceLoop_eq q ns ms ⟨ns, false, n.name, []⟩ ⟨ms, false, m.name, []⟩
        (r ++ bothDiff q n m) (.idle ns n.name) (.idle ms m.name)
      refine ⟨a', b', ?_, hd⟩
      simp only [horder, hc]
      rw [subtract_append, Side.taken, Side.taken, ← bothDiff, hrun, MergeJoin.join_of_eq hc, append_assoc]
termination_by ns ms => ns.length + ms.length

/-! ### What a tree gives -/

theorem has_eq_true {rrs : List Rr} : has ops rrs r = true ↔ ∃ s ∈ rrs, r.same ops s = true ∧ r.ttl = s.ttl := by
  rw [has, any_eq_true]
  refine exists_congr (fun s => and_congr_right (fun _ => ?_))
  rw [Bool.and_eq_true, beq_iff_eq]

theorem has_tree {t : Tree ops} (hr : r ∈ n.rrs) :
    has ops t.rrs r = (MergeJoin.partner nodeOrder t.nodes n).elim false (fun m => has ops m.rrs r) := by
  have hsame : ∀ m ∈ t.nodes, ∀ s ∈ m.rrs, r.same ops s = true → nodeOrder n m = .eq := by
    intro m _ s hs h
    rw [nodeOrder_eq_iff, ← Node.name_of_mem hr, ← Node.name_of_mem hs]
    exact (Rr.same_iff.1 h).1
  rw [Bool.eq_iff_iff, has_eq_true]
  cases hp : MergeJoin.partner nodeOrder t.nodes n with
  | none =>
    rw [MergeJoin.partner, find?_eq_none] at hp
    rw [Option.elim_none]
    refine iff_of_false ?_ Bool.false_ne_true
    rintro ⟨s, hs, h, -⟩
    obtain ⟨m, hm, hs⟩ := mem_flatMap.1 hs
    exact hp m hm (beq_iff_eq.2 (hsame m hm s hs h))
  | some m =>
    obtain ⟨hm, hc⟩ := MergeJoin.partner_eq_some hp
    rw [Option.elim_some, has_eq_true]
    constructor
    · rintro ⟨s, hs, h, httl⟩
      obtain ⟨m', hm', hs⟩ := mem_flatMap.1 hs
      rw [MergeJoin.partner_unique t.nodes_sorted hm hm' hc (hsame m' hm' s hs h)]
      exact ⟨s, hs, h, httl⟩
    · rintro ⟨s, hs, h, httl⟩
      exact ⟨s, mem_flatMap.2 ⟨m, hm, hs⟩, h, httl⟩

theorem flatMap_part_tree (op : DiffOp) (t u : Tree ops) : t.nodes.flatMap (MergeJoin.part nodeOrder (getNameDiff op)
      (fun n m => (n.rrs.filter (fun r => !has ops m.rrs r)).map (Rr.tuple op)) u.nodes) =
    (t.rrs.filter (fun r => !has ops u.rrs r)).map (Rr.tuple op) := by
  rw [Tree.rrs.eq_def t, filter_flatMap, map_flatMap]
  refine flatMap_congr (fun n _ => ?_)
  have hcongr : n.rrs.filter (fun r => !has ops u.rrs r) = n.rrs.filter (fun r =>
      !(MergeJoin.partner nodeOrder u.nodes n).elim false (fun m => has ops m.rrs r)) :=
    filter_congr (fun r hr => by rw [has_tree hr])
  rw [hcongr, MergeJoin.part]
  cases MergeJoin.partner nodeOrder u.nodes n with
  | none => simp [getNameDiff_eq]
  | some m => rfl

theorem Lawful.diffNamespace_perm (hl : Lawful ops) (q : Qsort) (t u : Tree ops) (r : Tuples) :
    ∃ out, diffNamespace q t u r = .ok (r ++ out) ∧
      out.Perm ((t.rrs.filter (fun r => !has ops u.rrs r)).map (Rr.tuple .add) ++
        (u.rrs.filter (fun r => !has ops t.rrs r)).map (Rr.tuple .del)) := by
  obtain ⟨a, b, hrun, ha, hb⟩ := namespaceLoop_eq q t.nodes u.nodes _ _ r (.idle t.nodes ⟨[]⟩) (.idle u.nodes ⟨[]⟩)
  refine ⟨MergeJoin.join nodeOrder (getNameDiff .add) (getNameDiff .del) (bothDiff q) t.nodes u.nodes, ?_, ?_⟩
  · rw [diffNamespace, hrun, ok_then]
    simp only [ha, hb, decide_true, require_true, ok_then]
    rfl
  · have hjoin := MergeJoin.join_perm (getNameDiff .add) (getNameDiff .del) (bothDiff q)
      (fun n m => (n.rrs.filter (fun r => !has ops m.rrs r)).map (Rr.tuple .add))
      (fun n m => (n.rrs.filter (fun r => !has ops m.rrs r)).map (Rr.tuple .del)) t.nodes_sorted u.nodes_sorted ?_
    · rw [flatMap_part_tree, flatMap_part_tree] at hjoin
      exact hjoin
    · intro n _ m _ he
      obtain ⟨out, hout, hp⟩ := hl.subtract_nodes q (nodeOrder_eq_iff.1 he) []
      rw [bothDiff, hout]
      exact hp

/-- The tuples that lead from `old` to `new`, in one of their orders. -/
def exactDiff (ops : RdataOps) (new old : List Rr) : Tuples :=
  (new.filter (fun r => !has ops old r)).map (Rr.tuple .add) ++ (old.filter (fun r => !has ops new r)).map (Rr.tuple .del)

theorem Lawful.has_contents (hl : Lawful ops) (c : Contents ops) : (¬r.isNsec3 → has ops c.rrs r = has ops c.tree.rrs r) ∧
    (r.isNsec3 → has ops c.rrs r = has ops c.nsec3.rrs r) := by
  have happend : has ops c.rrs r = (has ops c.tree.rrs r || has ops c.nsec3.rrs r) := any_append
  constructor
  · intro hr
    have hno : has ops c.nsec3.rrs r = false := by
      rw [Bool.eq_false_iff, ne_eq, has_eq_true]
      rintro ⟨s, hs, h, -⟩
      exact hr ((hl.isNsec3_congr h).2 (c.chain_of_mem hs))
    rw [happend, hno, Bool.or_false]
  · intro hr
    have hno : has ops c.tree.rrs r = false := by
      rw [Bool.eq_false_iff, ne_eq, has_eq_true]
      rintro ⟨s, hs, h, -⟩
      exact c.plain_of_mem hs ((hl.isNsec3_congr h).1 hr)
    rw [happend, hno, Bool.false_or]

theorem Lawful.filter_contents (hl : Lawful ops) (c d : Contents ops) : c.rrs.filter (fun r => !has ops d.rrs r) =
    c.tree.rrs.filter (fun r => !has ops d.tree.rrs r) ++ c.nsec3.rrs.filter (fun r => !has ops d.nsec3.rrs r) := by
  rw [Contents.rrs.eq_def c, filter_append]
  congr 1
  · exact filter_congr (fun r hr => by rw [(hl.has_contents d).1 (c.plain_of_mem hr)])
  · exact filter_congr (fun r hr => by rw [(hl.has_contents d).2 (c.chain_of_mem hr)])

theorem Lawful.dbDiffx_perm (hl : Lawful ops) (q : Qsort) (A B : Contents ops) :
    ∃ diff, dbDiffx q A B = .ok diff ∧ diff.Perm (exactDiff ops A.rrs B.rrs) := by
  obtain ⟨out, hout, hp⟩ := hl.diffNamespace_perm q A.tree B.tree []
  obtain ⟨out', hout', hp'⟩ := hl.diffNamespace_perm q A.nsec3 B.nsec3 out
  refine ⟨out ++ out', ?_, ?_⟩
  · rw [dbDiffx, hout, ok_then, nil_append, hout']
  · rw [exactDiff, hl.filter_contents, hl.filter_contents, map_append, map_append]
    refine (hp.append hp').trans ?_
    rw [append_assoc, append_assoc]
    exact (perm_append_comm_assoc _ _ _).append_left _

/-! ### Applying the diff -/

variable (ops) in
/-- The effect of one tuple on a set of records: a deletion removes the owner, type and rdata, an addition inserts the
record with its TTL. -/
def applyTuple (rrs : List Rr) (t : DiffTuple) : List Rr :=
  match t.op with
  | .del | .delresign => rrs.filter (fun r => !(rrOf t).same ops r)
  | .add | .addresign => rrOf t :: rrs

variable (ops) in
def applyDiff (diff : Tuples) (rrs : List Rr) : List Rr := diff.foldl (applyTuple ops) rrs

theorem applyTuple_del {t : DiffTuple} (h : t.op.aop = 1) (rrs : List Rr) :
    applyTuple ops rrs t = rrs.filter (fun r => !(rrOf t).same ops r) := by
  unfold applyTuple
  cases hop : t.op with
  | del | delresign => rfl
  | add | addresign => rw [hop] at h; cases h

theorem applyTuple_add {t : DiffTuple} (h : t.op.aop = 0) (rrs : List Rr) : applyTuple ops rrs t = rrOf t :: rrs := by
  unfold applyTuple
  cases hop : t.op with
  | add | addresign => rfl
  | del | delresign => rw [hop] at h; cases h

theorem aop_cases (op : DiffOp) : op.aop = 0 ∨ op.aop = 1 := by
  cases op with
  | add | addresign => exact .inl rfl
  | del | delresign => exact .inr rfl

/-- Deletions before additions: what is left of the old records, and the additions. -/
theorem applyDiff_perm : ∀ (diff : Tuples) (rrs : List Rr),
    diff.Pairwise (fun s t => t.op.aop ≤ s.op.aop) →
    (applyDiff ops diff rrs).Perm ((diff.filter (fun t => t.op.aop == 0)).map rrOf ++
      rrs.filter (fun r => !diff.any (fun t => t.op.aop == 1 && (rrOf t).same ops r)))
  | [], rrs, _ => by simp [applyDiff]
  | t :: diff, rrs, h => by
    obtain ⟨hle, h'⟩ := pairwise_cons.1 h
    obtain hop | hop := aop_cases t.op
    · -- after an addition there are additions only
      have hno : ∀ r, diff.any (fun t => t.op.aop == 1 && (rrOf t).same ops r) = false := by
        intro r
        rw [any_eq_false]
        intro u hu
        have hzero : u.op.aop = 0 := by have := hle u hu; omega
        simp [hzero]
      have ih := applyDiff_perm diff (rrOf t :: rrs) h'
      simp only [hno, Bool.not_false, filter_true] at ih
      rw [applyDiff, foldl_cons, applyTuple_add hop, filter_cons_of_pos (by simp [hop]), map_cons]
      simp only [any_cons, hno, hop, Nat.reduceBEq, Bool.false_and, Bool.or_false, Bool.not_false, filter_true]
      exact ih.trans perm_middle
    have ih := applyDiff_perm diff (rrs.filter (fun r => !(rrOf t).same ops r)) h'
    rw [filter_filter] at ih
    rw [applyDiff, foldl_cons, applyTuple_del hop, filter_cons_of_neg (by simp [hop])]
    simp only [any_cons, hop, beq_self_eq_true, Bool.true_and, Bool.not_or]
    simp only [Bool.and_comm] at ih ⊢
    exact ih

/-! ### The result -/

section Exact

variable (hl : Lawful ops) {new old : List Rr} (hnew : new.Pairwise (fun r s => ¬r.same ops s = true))
  (hold : old.Pairwise (fun r s => ¬r.same ops s = true))

theorem mem_exactDiff {t : DiffTuple} (h : t ∈ exactDiff ops new old) :
    (t.op = .add ∧ rrOf t ∈ new ∧ has ops old (rrOf t) = false) ∨
      (t.op = .del ∧ rrOf t ∈ old ∧ has ops new (rrOf t) = false) := by
  obtain h | h := mem_append.1 h
  · obtain ⟨r, hr, rfl⟩ := mem_map.1 h
    obtain ⟨hr, hh⟩ := mem_filter.1 hr
    exact .inl ⟨rfl, hr, Bool.not_eq_true' _ ▸ hh⟩
  obtain ⟨r, hr, rfl⟩ := mem_map.1 h
  obtain ⟨hr, hh⟩ := mem_filter.1 hr
  exact .inr ⟨rfl, hr, Bool.not_eq_true' _ ▸ hh⟩

include hl in
/-- In a list without repetitions, the same record is one element. -/
theorem Lawful.eq_of_same {rrs : List Rr} (hd : rrs.Pairwise (fun r s => ¬r.same ops s = true))
    (hr : r ∈ rrs) (hs : s ∈ rrs) (h : r.same ops s = true) : r = s := by
  have hall := Pairwise.forall_of_forall_of_flip (R := fun r s => r.same ops s = true → r = s) (fun _ _ _ => rfl)
    (hd.imp (fun hn he => absurd he hn)) (hd.imp (fun hn he => absurd (hl.same_symm he) hn))
  exact hall hr hs h

include hnew hold in
theorem exactDiff_distinct :
    (exactDiff ops new old).Pairwise (fun s t => ¬(s.op = t.op ∧ (rrOf s).same ops (rrOf t) = true)) := by
  rw [exactDiff, pairwise_append, pairwise_map, pairwise_map]
  refine ⟨(hnew.filter _).imp (fun h he => h he.2), (hold.filter _).imp (fun h he => h he.2), ?_⟩
  intro s hs t ht he
  obtain ⟨r, -, rfl⟩ := mem_map.1 hs
  obtain ⟨u, -, rfl⟩ := mem_map.1 ht
  cases he.1

theorem applied_adds : ((exactDiff ops new old).filter (fun t => t.op.aop == 0)).map rrOf =
    new.filter (fun r => !has ops old r) := by
  have hadd : (fun t : DiffTuple => t.op.aop == 0) ∘ Rr.tuple .add = fun _ => true := rfl
  have hdel : (fun t : DiffTuple => t.op.aop == 0) ∘ Rr.tuple .del = fun _ => false := rfl
  rw [exactDiff, filter_append, filter_map, filter_map, hadd, hdel, filter_true, filter_false,
    map_nil, append_nil, map_map]
  exact map_id _

include hl hold in
/-- A record goes when the new list does not have it with its TTL. -/
theorem Lawful.applied_dels (hr : r ∈ old) :
    (exactDiff ops new old).any (fun t => t.op.aop == 1 && (rrOf t).same ops r) = !has ops new r := by
  rw [Bool.eq_iff_iff, any_eq_true]
  constructor
  · rintro ⟨t, ht, hc⟩
    obtain ⟨hop, hs⟩ := Bool.and_eq_true_iff.1 hc
    obtain ⟨he, -, -⟩ | ⟨-, hmem, hno⟩ := mem_exactDiff ht
    · rw [he] at hop
      cases hop
    · rw [← hl.eq_of_same hold hmem hr hs, hno]
      rfl
  · intro hno
    refine ⟨r.tuple .del, mem_append_right _ (mem_map_of_mem (mem_filter.2 ⟨hr, hno⟩)), ?_⟩
    rw [Bool.and_eq_true]
    exact ⟨rfl, hl.same_refl r⟩

include hl hnew hold in
/-- Applied to the old records, any order of the tuples that has the deletions first gives the new records. -/
theorem Lawful.applyDiff_exact {diff : Tuples} (hp : diff.Perm (exactDiff ops new old))
    (hs : diff.Pairwise (fun s t => t.op.aop ≤ s.op.aop)) :
    ∃ l, l.Perm (applyDiff ops diff old) ∧ Forall₂ (Rr.equiv ops) l new := by
  have happ : (applyDiff ops diff old).Perm
      (new.filter (fun r => !has ops old r) ++ old.filter (fun r => has ops new r)) := by
    refine (applyDiff_perm diff old hs).trans (Perm.append ?_ ?_)
    · rw [← applied_adds]
      exact (hp.filter _).map _
    · refine Perm.of_eq (filter_congr (fun r hr => ?_))
      rw [hp.any_eq, hl.applied_dels hold hr, Bool.not_not]
  have symm : ∀ {x y : Rr}, x.equiv ops y → y.equiv ops x := fun h => ⟨hl.same_symm h.1, h.2.symm⟩
  have trans : ∀ {x y z : Rr}, x.equiv ops y → y.equiv ops z → x.equiv ops z :=
    fun h h' => ⟨hl.same_trans h.1 h'.1, h.2.trans h'.2⟩
  -- both lists are free of repetitions, and each record of one has an equivalent in the other
  have hdis : (applyDiff ops diff old).Pairwise (fun x y => ¬x.equiv ops y) := by
    refine (happ.pairwise_iff (fun h he => h (symm he))).2 (pairwise_append.2 ⟨?_, ?_, ?_⟩)
    · exact (hnew.filter _).imp (fun h he => h he.1)
    · exact (hold.filter _).imp (fun h he => h he.1)
    · intro x hx y hy he
      have hno := (mem_filter.1 hx).2
      rw [has_eq_true.2 ⟨y, (mem_filter.1 hy).1, he⟩] at hno
      cases hno
  refine MergeJoin.exists_perm_forall₂ (Rr.equiv ops) symm trans hdis (hnew.imp (fun h he => h he.1)) ?_ ?_
  · intro x hx
    obtain hx | hx := mem_append.1 (happ.mem_iff.1 hx)
    · exact ⟨x, (mem_filter.1 hx).1, hl.same_refl x, rfl⟩
    · obtain ⟨y, hy, he⟩ := has_eq_true.1 (mem_filter.1 hx).2
      exact ⟨y, hy, he⟩
  · intro y hy
    by_cases hh : has ops old y = true
    · obtain ⟨x, hx, he⟩ := has_eq_true.1 hh
      have hback : has ops new x = true := has_eq_true.2 ⟨y, hy, symm he⟩
      exact ⟨x, happ.mem_iff.2 (mem_append_right _ (mem_filter.2 ⟨hx, hback⟩)), symm he⟩
    · have hmem : y ∈ new.filter (fun r => !has ops old r) := mem_filter.2 ⟨hy, by simp [hh]⟩
      exact ⟨y, happ.mem_iff.2 (mem_append_left _ hmem), hl.same_refl y, rfl⟩

end Exact

theorem ixfrOrder_aop {s t : DiffTuple} (h : (ixfrOrder s t).isLE = true) : t.op.aop ≤ s.op.aop := by
  rw [ixfrOrder, Ordering.isLE_then_iff_and] at h
  exact Std.isLE_compare.1 h.1

/-- **The difference of two databases is exact.**  `dns_db_diffx` ends without a failed assertion and with empty
temporary diffs.  Its tuples are an addition for each record of `A` that `B` has not with the same TTL and a deletion
for each record of `B` that `A` has not: none is lost, none is there twice, no record is added and deleted with one TTL,
and no record that both have with one TTL appears.  Sorted by `ixfr_order`, in whatever way `qsort` orders equal tuples,
they turn the records of `B` into those of `A`, up to case. -/
theorem dbDiffx_exact (hl : Lawful ops) (q : Qsort) (A B : Contents ops) : ∃ diff, dbDiffx q A B = .ok diff ∧
      diff.Perm ((A.rrs.filter (fun r => !has ops B.rrs r)).map (Rr.tuple .add) ++
        (B.rrs.filter (fun r => !has ops A.rrs r)).map (Rr.tuple .del)) ∧
      diff.Pairwise (fun s t => ¬(s.op = t.op ∧ (rrOf s).same ops (rrOf t) = true)) ∧
      (∀ s ∈ diff, ∀ t ∈ diff, s.op = .add → t.op = .del → (rrOf s).same ops (rrOf t) = true → s.ttl ≠ t.ttl) ∧
      (∀ r ∈ A.rrs, ∀ s ∈ B.rrs, r.same ops s = true → r.ttl = s.ttl → ∀ t ∈ diff, ¬(rrOf t).same ops r = true) ∧
      ∃ l, l.Perm (applyDiff ops (q.sort ixfrOrder diff) B.rrs) ∧
        Forall₂ (fun r s => r.same ops s = true ∧ r.ttl = s.ttl) l A.rrs := by
  obtain ⟨diff, hdiff, hp⟩ := hl.dbDiffx_perm q A B
  have hA := A.rrs_distinct hl
  have hB := B.rrs_distinct hl
  refine ⟨diff, hdiff, hp, ?_, ?_, ?_, ?_⟩
  · refine (hp.pairwise_iff (fun {s t} h he => h ⟨he.1.symm, hl.same_symm he.2⟩)).2 ?_
    exact exactDiff_distinct hA hB
  · intro s hs t ht hsa htd hsame httl
    obtain ⟨-, -, hno⟩ | ⟨he, -, -⟩ := mem_exactDiff (hp.mem_iff.1 hs)
    · obtain ⟨he, -, -⟩ | ⟨-, htB, -⟩ := mem_exactDiff (hp.mem_iff.1 ht)
      · rw [htd] at he
        cases he
      · rw [has_eq_true.2 ⟨rrOf t, htB, hsame, httl⟩] at hno
        cases hno
    · rw [hsa] at he
      cases he
  · intro r hr s hs hsame httl t ht hrt
    obtain ⟨-, htA, hno⟩ | ⟨-, htB, hno⟩ := mem_exactDiff (hp.mem_iff.1 ht)
    · rw [hl.eq_of_same hA htA hr hrt, has_eq_true.2 ⟨s, hs, hsame, httl⟩] at hno
      cases hno
    rw [hl.eq_of_same hB htB hs (hl.same_trans hrt hsame),
      has_eq_true.2 ⟨r, hr, hl.same_symm hsame, httl.symm⟩] at hno
    cases hno
  · exact hl.applyDiff_exact hA hB ((q.perm _ diff).trans hp) ((q.sorted _ diff).imp ixfrOrder_aop)

/-! ### An instance -/

/-- Rdata compared as bytes, as `dns_rdata_compare` compares those of a type without names. -/
def byteOps : RdataOps := ⟨fun _ a b => compare a b, fun _ => false⟩

theorem lawful_byteOps : Lawful byteOps where
  trans _ := inferInstanceAs (Std.TransCmp (compare : Rdata → Rdata → Ordering))
  covers _ a b h := by rw [Std.LawfulEqOrd.compare_eq_iff_eq.1 h]

/-- A database with one TXT record at the name of one letter. -/
def oneRecord (c : UInt8) (ttl : ℕ) (rdata : Rdata) : Contents byteOps where
  tree := ⟨[⟨⟨[[c], []]⟩, [⟨1, 16, 0, ttl, [rdata], pairwise_singleton _ _, by simp [rdataCovers, issig]⟩],
    pairwise_singleton _ _⟩], pairwise_singleton _ _⟩
  nsec3 := ⟨[], .nil⟩
  plain := by simp [Rdataset.isNsec3, nsec3]
  chain := by simp

/-- A record whose TTL changes is deleted and added. -/
theorem dbDiffx_exact_ttl : ∃ diff,
    dbDiffx .mergeSort (oneRecord 97 300 [1, 120]) (oneRecord 97 600 [1, 120]) = .ok diff ∧
      diff.Perm [⟨.add, ⟨[[97], []]⟩, 300, 1, 16, [1, 120]⟩,
        ⟨.del, ⟨[[97], []]⟩, 600, 1, 16, [1, 120]⟩] := by
  obtain ⟨diff, hdiff, hp, -⟩ :=
    dbDiffx_exact lawful_byteOps .mergeSort (oneRecord 97 300 [1, 120]) (oneRecord 97 600 [1, 120])
  exact ⟨diff, hdiff, hp⟩

end DbDiff

end Bind9
