import Bind9.ZoneView

/-! # When a zone takes a change

`addrdataset` and `subtractrdataset` succeed under conditions on the set of records: a limit on the number of rdata, one
rdata for some types, no CNAME beside other data, for a deletion that the records are there.  `Takes` says this of the
contents of a zone, which are looked at without the order of the slabs and without the TTL.

`Sound` is what holds of every zone that these operations have built. -/

namespace Bind9.ZoneDb

open List
open Function
open Option hiding any_eq_true mem_map

open Diff Rbtdb Std

/-! ### Counting -/

section counting

variable {ops : RdataOps} {type : UInt16}

/-- No more than `n` rdata, up to `dns_rdata_compare`. -/
def Fits (ops : RdataOps) (type : UInt16) (n : ℕ) (s : Set Rdata) : Prop :=
  ∀ l, InOrder ops type l → members ops type l ⊆ s → l.length ≤ n

theorem Fits.mono {n : ℕ} {s t : Set Rdata} (ht : Fits ops type n t) (h : s ⊆ t) : Fits ops type n s :=
  fun l hl hs => ht l hl (hs.trans h)

variable [TransCmp (ops.compare type)]

theorem subset_members {l : List Rdata} {x : Rdata} (hx : x ∈ l) : x ∈ members ops type l := ⟨x, hx, ReflCmp.compare_self⟩

/-- Each rdata of the first list is one of the second list, another one each time. -/
theorem length_le_of_members {l m : List Rdata} (hl : InOrder ops type l) (h : members ops type l ⊆ members ops type m) :
    l.length ≤ m.length := by
  have hmem : ∀ x ∈ l, ∃ y ∈ m, ops.compare type y x = .eq := fun x hx => h (subset_members hx)
  choose! f hf using hmem
  have hnodup : (l.map f).Nodup := by
    rw [List.Nodup, pairwise_map]
    refine hl.imp_of_mem (fun {a b} ha hb hab he => ?_)
    have hba : ops.compare type a b = .eq := by
      apply TransCmp.eq_trans (OrientedCmp.eq_symm (hf a ha).2)
      rw [he]
      exact (hf b hb).2
    rw [hab] at hba
    cases hba
  have hsub : l.map f ⊆ m := by
    intro y hy
    obtain ⟨x, hx, rfl⟩ := mem_map.1 hy
    exact (hf x hx).1
  rw [← length_map f]
  exact (subperm_of_subset hnodup hsub).length_le

theorem InOrder.fits_iff {l : List Rdata} (hl : InOrder ops type l) {n : ℕ} :
    Fits ops type n (members ops type l) ↔ l.length ≤ n :=
  ⟨fun h => h l hl subset_rfl, fun h _ hm hs => (length_le_of_members hm hs).trans h⟩

omit [TransCmp (ops.compare type)] in
theorem length_mergeLoop (os ns : List Rdata) : (Slab.mergeLoop ops type os ns).length = os.length + ns.length := by
  induction os, ns using Slab.mergeLoop.induct ops type with
  | case1 os | case2 n ns => simp [Slab.mergeLoop]
  | case3 o os n ns hlt ih =>
    rw [Slab.mergeLoop, if_pos hlt, length_cons, ih, length_cons, length_cons]
    omega
  | case4 o os n ns hlt ih =>
    rw [Slab.mergeLoop, if_neg hlt, length_cons, ih, length_cons, length_cons]
    omega

theorem fits_union {old new : Slab} (ho : InOrder ops type old.1) (hn : InOrder ops type new.1) {n : ℕ} :
    Fits ops type n (members ops type old.1 ∪ members ops type new.1) ↔
      old.1.length + (Slab.added ops type old new).length ≤ n := by
  have hord : InOrder ops type (Slab.mergeLoop ops type old.1 (Slab.added ops type old new)) := by
    refine mergeLoop_inOrder ho (Pairwise.filter _ hn) (fun o ho' x hx he => ?_)
    exact ((mem_added ho).1 hx).2 ⟨o, ho', he⟩
  have hmem : members ops type (Slab.mergeLoop ops type old.1 (Slab.added ops type old new)) =
      members ops type old.1 ∪ members ops type new.1 := by
    rw [← added_members ho, ← members_append]
    exact members_congr (fun x => by rw [mem_mergeLoop, mem_append])
  rw [← length_mergeLoop, ← hord.fits_iff, hmem]

theorem removed_iff {old sub : Slab} (ho : InOrder ops type old.1) (hs : InOrder ops type sub.1) :
    old.1.length - (Slab.kept ops type old sub).length = sub.1.length ↔ members ops type sub.1 ⊆ members ops type old.1 := by
  let removed := old.1.filter (fun r => sub.1.any (fun s => ops.compare type r s == .eq))
  have hlen : old.1.length - (Slab.kept ops type old sub).length = removed.length := by
    have h := length_eq_length_filter_add (l := old.1) (fun r => sub.1.any (fun s => ops.compare type r s == .eq))
    change old.1.length = removed.length + (Slab.kept ops type old sub).length at h
    omega
  have hord : InOrder ops type removed := Pairwise.filter _ ho
  have hmem : members ops type removed = members ops type old.1 ∩ members ops type sub.1 := by
    ext r
    simp only [Set.mem_inter_iff, mem_members, removed, mem_filter, any_eq_true, beq_iff_eq]
    constructor
    · rintro ⟨x, ⟨hx, y, hy, hxy⟩, hxr⟩
      exact ⟨⟨x, hx, hxr⟩, y, hy, TransCmp.eq_trans (OrientedCmp.eq_symm hxy) hxr⟩
    · rintro ⟨⟨x, hx, hxr⟩, y, hy, hyr⟩
      exact ⟨x, ⟨hx, y, hy, TransCmp.eq_trans hxr (OrientedCmp.eq_symm hyr)⟩, hxr⟩
  rw [hlen]
  constructor
  · intro h
    -- otherwise the removed rdata would fit into fewer than the slab has
    let found := sub.1.filter (fun s => old.1.any (fun r => ops.compare type r s == .eq))
    have hsub : members ops type removed ⊆ members ops type found := by
      rw [hmem]
      rintro r ⟨⟨x, hx, hxr⟩, y, hy, hyr⟩
      refine ⟨y, mem_filter.2 ⟨hy, any_eq_true.2 ⟨x, hx, ?_⟩⟩, hyr⟩
      rw [beq_iff_eq]
      exact TransCmp.eq_trans hxr (OrientedCmp.eq_symm hyr)
    have hle := length_le_of_members hord hsub
    rw [h] at hle
    have hall := length_filter_eq_length_iff.1 (Nat.le_antisymm (length_filter_le _ sub.1) hle)
    rintro r ⟨y, hy, hyr⟩
    obtain ⟨x, hx, hxy⟩ := any_eq_true.1 (hall y hy)
    exact ⟨x, hx, TransCmp.eq_trans (beq_iff_eq.1 hxy) hyr⟩
  · intro h
    rw [Set.inter_eq_right.2 h] at hmem
    exact Nat.le_antisymm (length_le_of_members hord hmem.le) (length_le_of_members hs hmem.ge)

end counting

/-! ### The slab routines -/

section slabs

variable {ops : RdataOps} {type : UInt16}

theorem merge_cases (old new : Slab) (exact force : Bool) : (Slab.added ops type old new = [] ∧ force = false ∧
      Slab.merge ops type true old new exact force = .error .unchanged) ∨
    ((0xffff < old.1.length + (Slab.added ops type old new).length ∨
        1 < old.1.length + (Slab.added ops type old new).length ∧ ops.issingleton type = true) ∧
      (Slab.merge ops type true old new exact force = .error .singleton ∨
        Slab.merge ops type true old new exact force = .error .nospace)) ∨
    (old.1.length + (Slab.added ops type old new).length ≤ 0xffff ∧
      (ops.issingleton type = true → old.1.length + (Slab.added ops type old new).length ≤ 1) ∧
      ∃ m, Slab.merge ops type true old new exact force = .ok m ∧
        m.1 = Slab.mergeLoop ops type old.1 (Slab.added ops type old new)) := by
  unfold Slab.merge
  rw [if_neg (fun h => h.2 (Nat.add_comm _ _))]
  split
  next h => exact .inl ⟨h.1, h.2, rfl⟩
  split
  next h => exact .inr (.inl ⟨.inr h, .inl rfl⟩)
  next hsingle =>
    split
    next h => exact .inr (.inl ⟨.inl h, .inr rfl⟩)
    next hroom =>
      refine .inr (.inr ⟨Nat.le_of_not_lt hroom, fun hs => ?_, _, rfl, rfl⟩)
      exact Nat.le_of_not_lt (fun h => hsingle ⟨h, hs⟩)

theorem subtract_cases (old sub : Slab) : (old.1.length - (Slab.kept ops type old sub).length ≠ sub.1.length ∧
      Slab.subtract ops type true old sub true = .error .notexact) ∨
    (old.1.length - (Slab.kept ops type old sub).length = sub.1.length ∧ Slab.kept ops type old sub = [] ∧
      Slab.subtract ops type true old sub true = .error .nxrrset) ∨
    (old.1.length - (Slab.kept ops type old sub).length = sub.1.length ∧
      ∃ rest, Slab.subtract ops type true old sub true = .ok rest ∧ rest.1 = Slab.kept ops type old sub) := by
  have hpos := length_pos_of_ne_nil sub.2
  unfold Slab.subtract
  simp only
  by_cases hcount : old.1.length - (Slab.kept ops type old sub).length = sub.1.length
  · rw [if_neg (by simp [hcount])]
    by_cases hnil : Slab.kept ops type old sub = []
    · rw [dif_pos hnil]
      exact .inr (.inl ⟨hcount, hnil, rfl⟩)
    · rw [dif_neg hnil, if_neg (by omega)]
      exact .inr (.inr ⟨hcount, _, rfl, rfl⟩)
  · rw [if_pos ⟨trivial, hcount⟩]
    exact .inl ⟨hcount, rfl⟩

end slabs

/-! ### Contents -/

abbrev Contents := Key → Option (Set Rdata)

def View.rdata (v : View) : Contents := fun k => (v k).map Prod.snd

/-- The rdata under a key, perhaps none. -/
def Contents.at (c : Contents) (k : Key) : Set Rdata := (c k).getD ∅

/-- More rdata under a key. -/
def Contents.add (ops : RdataOps) (c : Contents) (k : Key) (l : List Rdata) : Contents :=
  update c k (some (c.at k ∪ members ops k.type.base l))

/-- More rdata under a key, with a new TTL. -/
def View.load (ops : RdataOps) (v : View) (k : Key) (ttl : ℕ) (l : List Rdata) : View :=
  update v k (some (ttl, v.rdata.at k ∪ members ops k.type.base l))

/-- A CNAME and other data at the owner of a key. -/
def Clash (c : Contents) (k : Key) : Prop :=
  k.isNsec3 = false ∧ (c ⟨k.name, .cname⟩).isSome ∧
    ∃ e : Key, (c e).isSome ∧ e.name = k.name ∧ e.isNsec3 = false ∧ e.type ≠ .cname ∧ e.type.isOther = true

/-- There is room for rdata under a key. -/
structure Takes (ops : RdataOps) (c : Contents) (k : Key) (l : List Rdata) : Prop where
  room : Fits ops k.type.base 0xffff (c.at k ∪ members ops k.type.base l)
  single : ops.issingleton k.type.base = true → Fits ops k.type.base 1 (c.at k ∪ members ops k.type.base l)
  clash : ¬Clash (c.add ops k l) k

/-- What holds of a zone that is built from nothing. -/
structure Sound (ops : RdataOps) (z : Zone) : Prop where
  ordered : Ordered ops z
  room : ∀ k s, z.find k = some s → s.rdata.1.length ≤ 0xffff
  single : ∀ k s, z.find k = some s → ops.issingleton k.type.base = true → s.rdata.1.length ≤ 1
  clash : ∀ k, ¬Clash (view ops z).rdata k

section contents

variable {ops : RdataOps}

theorem Clash.mono {c c' : Contents} {k : Key} (hc : ∀ e, (c e).isSome = true → (c' e).isSome = true) (h : Clash c k) :
    Clash c' k := by
  obtain ⟨hk, hcn, e, he, hrest⟩ := h
  exact ⟨hk, hc _ hcn, e, hc _ he, hrest⟩

theorem Clash.of_insert {c c' : Contents} {k e : Key} (hc : ∀ x, (c' x).isSome = true → x = k ∨ (c x).isSome = true)
    (h : Clash c' e) : Clash c e ∨ Clash c' k := by
  obtain ⟨he, hcn, o, ho, hname, hnsec3, hne, hother⟩ := h
  by_cases hk : k.name = e.name ∧ k.isNsec3 = false
  · right
    refine ⟨hk.2, ?_, o, ho, hname.trans hk.1.symm, hnsec3, hne, hother⟩
    rwa [hk.1]
  left
  have hcname : (⟨e.name, .cname⟩ : Key) ≠ k := by
    rintro rfl
    exact hk ⟨rfl, rfl⟩
  have hok : o ≠ k := by
    rintro rfl
    exact hk ⟨hname, hnsec3⟩
  exact ⟨he, (hc _ hcn).resolve_left hcname, o, (hc o ho).resolve_left hok, hname, hnsec3, hne, hother⟩

theorem isSome_add {c : Contents} {k e : Key} {l : List Rdata} :
    (c.add ops k l e).isSome = true ↔ e = k ∨ (c e).isSome = true := by
  unfold Contents.add
  by_cases h : e = k
  · subst h
    simp
  · rw [update_of_ne h]
    simp [h]

theorem Contents.add_at (c : Contents) (k : Key) (l : List Rdata) :
    (c.add ops k l).at k = c.at k ∪ members ops k.type.base l := by
  rw [Contents.at, Contents.add, update_self, getD_some]

theorem Contents.add_add (c : Contents) (k : Key) (l m : List Rdata) :
    (c.add ops k l).add ops k m = c.add ops k (l ++ m) := by
  rw [Contents.add, Contents.add_at, Contents.add, update_idem, Set.union_assoc, ← members_append]
  rfl

theorem View.rdata_load (v : View) (k : Key) (ttl : ℕ) (l : List Rdata) :
    (v.load ops k ttl l).rdata = v.rdata.add ops k l := by
  funext e
  unfold View.load View.rdata Contents.add
  by_cases h : e = k
  · subst h
    rw [update_self, update_self]
    rfl
  · rw [update_of_ne h, update_of_ne h]

theorem View.load_eq_add {v : View} {k : Key} {ttl : ℕ} (h : ∀ p ∈ v k, p.1 = ttl) (l : List Rdata) :
    v.load ops k ttl l = v.add ops k ttl l := by
  unfold View.load View.add
  congr 2
  cases hv : v k with
  | none =>
    rw [elim_none, Contents.at, View.rdata, hv, map_none, getD_none, Set.empty_union]
  | some p =>
    rw [elim_some, Contents.at, View.rdata, hv, map_some, getD_some, h p hv]

theorem takes_append {c : Contents} {k : Key} {l m : List Rdata} :
    Takes ops c k l ∧ Takes ops (c.add ops k l) k m ↔ Takes ops c k (l ++ m) := by
  have hsub : c.at k ∪ members ops k.type.base l ⊆ c.at k ∪ members ops k.type.base (l ++ m) := by
    rw [members_append, ← Set.union_assoc]
    exact Set.subset_union_left
  have hat : (c.add ops k l).at k ∪ members ops k.type.base m = c.at k ∪ members ops k.type.base (l ++ m) := by
    rw [Contents.add_at, Set.union_assoc, ← members_append]
  constructor
  · rintro ⟨-, h⟩
    refine ⟨?_, ?_, ?_⟩
    · rw [← hat]
      exact h.room
    · rw [← hat]
      exact h.single
    · rw [← Contents.add_add]
      exact h.clash
  · intro h
    refine ⟨⟨h.room.mono hsub, fun hs => (h.single hs).mono hsub, fun hc => h.clash (hc.mono fun e he => ?_)⟩, ?_, ?_, ?_⟩
    · rwa [isSome_add] at he ⊢
    · rw [hat]
      exact h.room
    · rw [hat]
      exact h.single
    · rw [Contents.add_add]
      exact h.clash

theorem view_isSome (z : Zone) (k : Key) : ((view ops z).rdata k).isSome = (z.find k).isSome := by
  rw [View.rdata, view, isSome_map, isSome_map]

theorem view_at {z : Zone} {k : Key} {s : Rdataset} (h : z.find k = some s) :
    (view ops z).rdata.at k = members ops k.type.base s.rdata.1 := by
  rw [Contents.at, View.rdata, view, h]
  rfl

theorem view_at_none {z : Zone} {k : Key} (h : z.find k = none) : (view ops z).rdata.at k = ∅ := by
  rw [Contents.at, View.rdata, view, h]
  rfl

theorem find_of_mem {z : Zone} {e : Key × Rdataset} (h : e ∈ z) : (z.find e.1).isSome = true := by
  rw [Zone.find, isSome_map, find?_isSome]
  exact ⟨e, h, by simp⟩

theorem mem_of_find {z : Zone} {k : Key} (h : (z.find k).isSome = true) : ∃ e ∈ z, e.1 = k := by
  rw [Zone.find, isSome_map, find?_isSome] at h
  simpa using h

theorem cnameAndOtherData_iff (z : Zone) (k : Key) : cnameAndOtherData z k = true ↔ Clash (view ops z).rdata k := by
  unfold cnameAndOtherData Clash
  simp only [view_isSome, Bool.and_eq_true, Bool.not_eq_true', any_eq_true, decide_eq_true_eq, and_assoc]
  refine and_congr_right (fun _ => and_congr_right (fun _ => ?_))
  constructor
  · rintro ⟨e, he, hrest⟩
    exact ⟨e.1, find_of_mem he, hrest⟩
  · rintro ⟨k', hk', hrest⟩
    obtain ⟨e, he, rfl⟩ := mem_of_find hk'
    exact ⟨e, he, hrest⟩

end contents

/-! ### The database operations -/

section operations

variable {env : Env} {z : Zone} {k : Key} {ttl : ℕ} {slab : Slab}

theorem sound_nil {ops : RdataOps} : Sound ops [] where
  ordered k s h := by cases h
  room k s h := by cases h
  single k s h := by cases h
  clash k h := by cases h.2.1

variable {s : Rdataset}

theorem Sound.put {ops : RdataOps} {z : Zone} (hz : Sound ops z) {k : Key}
    (hs : InOrder ops k.type.base s.rdata.1) (hroom : s.rdata.1.length ≤ 0xffff)
    (hsingle : ops.issingleton k.type.base = true → s.rdata.1.length ≤ 1)
    (hclash : ¬Clash (view ops (z.put k s)).rdata k) : Sound ops (z.put k s) := by
  have hfind : ∀ e u, (z.put k s).find e = some u → e = k ∧ u = s ∨ z.find e = some u := by
    intro e u he
    by_cases h : e = k
    · subst h
      rw [Zone.find_put_self] at he
      exact .inl ⟨rfl, (Option.some.inj he).symm⟩
    · rw [Zone.find_put_ne s h] at he
      exact .inr he
  refine ⟨hz.ordered.put hs, fun e u he => ?_, fun e u he => ?_, fun e he => ?_⟩
  · obtain ⟨rfl, rfl⟩ | he := hfind e u he
    · exact hroom
    · exact hz.room e u he
  · obtain ⟨rfl, rfl⟩ | he := hfind e u he
    · exact hsingle
    · exact hz.single e u he
  · have hkeys : ∀ x, ((view ops (z.put k s)).rdata x).isSome = true → x = k ∨ ((view ops z).rdata x).isSome = true := by
      intro x hx
      rw [view_isSome] at hx ⊢
      obtain ⟨u, hu⟩ := isSome_iff_exists.1 hx
      exact (hfind x u hu).imp And.left (fun h => isSome_iff_exists.2 ⟨u, h⟩)
    obtain h | h := he.of_insert hkeys
    · exact hz.clash e h
    · exact hclash h

theorem Sound.erase {ops : RdataOps} {z : Zone} (hz : Sound ops z) (k : Key) : Sound ops (z.erase k) := by
  have hfind : ∀ e u, (z.erase k).find e = some u → z.find e = some u := by
    intro e u he
    by_cases h : e = k
    · rw [h, Zone.find_erase_self] at he
      cases he
    · rwa [Zone.find_erase_ne h] at he
  refine ⟨hz.ordered.erase k, fun e u he => hz.room e u (hfind e u he), fun e u he => hz.single e u (hfind e u he),
    fun e he => hz.clash e (he.mono fun x hx => ?_)⟩
  rw [view_isSome] at hx ⊢
  obtain ⟨u, hu⟩ := isSome_iff_exists.1 hx
  exact isSome_iff_exists.2 ⟨u, hfind x u hu⟩

theorem finish_fine : Fine (finish z k).2 ↔ ¬Clash (view env.ops z).rdata k := by
  rw [← cnameAndOtherData_iff, finish]
  cases cnameAndOtherData z k <;> simp [Fine]

/-- A merged or new rdataset. -/
theorem view_put_load (hs : members env.ops k.type.base s.rdata.1 =
    (view env.ops z).rdata.at k ∪ members env.ops k.type.base slab.1) :
    view env.ops (z.put k s) = (view env.ops z).load env.ops k s.ttl slab.1 := by
  rw [view_put, View.load, hs]

variable [TransCmp (env.ops.compare k.type.base)]

/-- Storing an rdataset succeeds when the contents take it, and then makes a sound zone. -/
theorem finish_put (hz : Sound env.ops z) (hord : InOrder env.ops k.type.base s.rdata.1)
    (hmem : members env.ops k.type.base s.rdata.1 = (view env.ops z).rdata.at k ∪ members env.ops k.type.base slab.1)
    (hroom : s.rdata.1.length ≤ 0xffff) (hsingle : env.ops.issingleton k.type.base = true → s.rdata.1.length ≤ 1) :
    (Fine (finish (z.put k s) k).2 ↔ Takes env.ops (view env.ops z).rdata k slab.1) ∧
      (Fine (finish (z.put k s) k).2 → Sound env.ops (z.put k s) ∧
        view env.ops (z.put k s) = (view env.ops z).load env.ops k s.ttl slab.1) := by
  have hview := view_put_load (z := z) hmem
  have hrdata := @View.rdata_load env.ops (view env.ops z) k s.ttl slab.1
  rw [@finish_fine env, hview, hrdata]
  refine ⟨⟨fun h => ⟨?_, fun hs => ?_, h⟩, fun h => h.clash⟩, fun h => ⟨hz.put hord hroom hsingle ?_, rfl⟩⟩
  · rw [← hmem]
    exact hord.fits_iff.2 hroom
  · rw [← hmem]
    exact hord.fits_iff.2 (hsingle hs)
  · rwa [hview, hrdata]

theorem addrdataset_fine (hz : Sound env.ops z) (hslab : InOrder env.ops k.type.base slab.1)
    (hlen : slab.1.length ≤ 0xffff) (hone : env.ops.issingleton k.type.base = true → slab.1.length ≤ 1) (o : AddOptions) :
    (Fine (addrdataset env z k ttl slab o).2 ↔
      (o.exactttl = true → ∀ p ∈ view env.ops z k, p.1 = ttl) ∧ Takes env.ops (view env.ops z).rdata k slab.1) ∧
    (Fine (addrdataset env z k ttl slab o).2 → Sound env.ops (addrdataset env z k ttl slab o).1 ∧
      view env.ops (addrdataset env z k ttl slab o).1 = (view env.ops z).load env.ops k ttl slab.1) := by
  unfold addrdataset
  cases hf : z.find k with
  | none =>
    have hview : view env.ops z k = none := by rw [view, hf, map_none]
    have hmem : members env.ops k.type.base slab.1 =
        (view env.ops z).rdata.at k ∪ members env.ops k.type.base slab.1 := by
      rw [view_at_none hf, Set.empty_union]
    simp only [hview, mem_def, reduceCtorEq, false_implies, implies_true, true_and]
    exact finish_put hz (s := ⟨ttl, slab⟩) hslab hmem hlen hone
  | some old =>
    have hview : view env.ops z k = some (old.ttl, members env.ops k.type.base old.rdata.1) := by
      rw [view, hf, map_some]
    have hat := @view_at env.ops _ _ _ hf
    have hold := hz.ordered k old hf
    have hexact : (o.exactttl = true → ∀ p ∈ view env.ops z k, p.1 = ttl) ↔ ¬(o.exactttl = true ∧ ttl ≠ old.ttl) := by
      rw [hview]
      simp only [mem_def, Option.some.injEq, forall_eq', not_and, not_not]
      exact imp_congr_right (fun _ => eq_comm)
    rw [hexact]
    simp only
    unfold mergeRdata
    by_cases httl : o.exactttl = true ∧ ttl ≠ old.ttl
    · rw [if_pos httl]
      simp [Fine, httl]
    rw [if_neg httl]
    have hfits := fun n => fits_union (n := n) hold hslab
    obtain ⟨hnil, hsame, hm⟩ | ⟨htoo, hm⟩ | ⟨hroom, hsingle, m, hm, hloop⟩ :=
      @merge_cases env.ops k.type.base old.rdata slab o.exact (decide (ttl ≠ old.ttl))
    · -- nothing is new: the rdataset stays
      rw [hm]
      have heq : ttl = old.ttl := by simpa using hsame
      have hunion : members env.ops k.type.base old.rdata.1 ∪ members env.ops k.type.base slab.1 =
          members env.ops k.type.base old.rdata.1 := by
        rw [← added_members hold, hnil, ← members_append, append_nil]
      have htakes : Takes env.ops (view env.ops z).rdata k slab.1 := by
        refine ⟨?_, fun hs => ?_, fun hc => hz.clash k (hc.mono fun e he => ?_)⟩
        · rw [hat, hunion, hold.fits_iff]
          exact hz.room k old hf
        · rw [hat, hunion, hold.fits_iff]
          exact hz.single k old hf hs
        · obtain rfl | he := isSome_add.1 he
          · rw [view_isSome, hf, isSome_some]
          · exact he
      refine ⟨by simp [Fine, httl, htakes], fun _ => ⟨hz, ?_⟩⟩
      rw [View.load, hat, hunion, heq, ← hview, update_eq_self]
    · -- too many rdata
      have hno : ¬Takes env.ops (view env.ops z).rdata k slab.1 := by
        intro h
        obtain htoo | ⟨htoo, hs⟩ := htoo
        · have hle := h.room
          rw [hat, hfits] at hle
          omega
        have hle := h.single hs
        rw [hat, hfits] at hle
        omega
      obtain hm | hm := hm
      all_goals
        rw [hm]
        simp [Fine, hno]
    · -- the merged slab gets the new TTL
      rw [hm]
      have hlength := @length_mergeLoop env.ops k.type.base old.rdata.1
        (Slab.added env.ops k.type.base old.rdata slab)
      rw [← hloop] at hlength
      obtain ⟨hord, hmem⟩ := merge_ok hold hslab hm
      rw [← hat] at hmem
      obtain ⟨hfine, hdone⟩ := finish_put hz (s := ⟨ttl, m⟩) hord hmem (hlength.trans_le hroom)
        (fun hs => hlength.trans_le (hsingle hs))
      refine ⟨?_, hdone⟩
      rw [← hfine]
      exact (and_iff_right httl).symm

theorem subtractrdataset_fine (hz : Sound env.ops z) (hslab : InOrder env.ops k.type.base slab.1) :
    (Fine (subtractrdataset env z k ttl slab).2 ↔
      ∃ p ∈ view env.ops z k, p.1 = ttl ∧ members env.ops k.type.base slab.1 ⊆ p.2) ∧
    (Fine (subtractrdataset env z k ttl slab).2 → Sound env.ops (subtractrdataset env z k ttl slab).1) := by
  unfold subtractrdataset
  cases hf : z.find k with
  | none =>
    have hview : view env.ops z k = none := by rw [view, hf, map_none]
    simp [hview, Fine]
  | some old =>
    have hview : view env.ops z k = some (old.ttl, members env.ops k.type.base old.rdata.1) := by
      rw [view, hf, map_some]
    have hold := hz.ordered k old hf
    have hremoved := removed_iff hold hslab
    rw [hview]
    simp only [mem_def, Option.some.injEq, exists_eq_left']
    by_cases httl : ttl ≠ old.ttl
    · rw [if_pos httl]
      simp [Fine, httl.symm]
    rw [if_neg httl]
    rw [not_not] at httl
    subst httl
    obtain ⟨hno, hm⟩ | ⟨hyes, hnil, hm⟩ | ⟨hyes, rest, hm, hrest⟩ :=
      @subtract_cases env.ops k.type.base old.rdata slab
    · rw [hm]
      rw [ne_eq, hremoved] at hno
      simp [Fine, hno]
    · rw [hm]
      rw [hremoved] at hyes
      exact ⟨by simp [Fine, hyes], fun _ => hz.erase k⟩
    · rw [hm]
      rw [hremoved] at hyes
      have hle : rest.1.length ≤ old.rdata.1.length := by
        rw [hrest]
        exact length_filter_le _ _
      refine ⟨by simp [Fine, hyes], fun _ => hz.put ?_ ?_ ?_ ?_⟩
      · rw [hrest]
        exact Pairwise.filter _ hold
      · exact hle.trans (hz.room k old hf)
      · exact fun hs => hle.trans (hz.single k old hf hs)
      · refine fun hc => hz.clash k (hc.mono fun e he => ?_)
        rw [view_isSome] at he ⊢
        by_cases h : e = k
        · rw [h, hf, isSome_some]
        · rwa [Zone.find_put_ne _ h] at he

end operations

end Bind9.ZoneDb
