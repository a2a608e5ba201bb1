import Bind9.DbDiffExact
import Bind9.Lib.Hoare
import Bind9.Update
import Bind9.ZoneView

/-! # No update goes round the policy

The prescan asks the policy about every record of the update section before anything is changed.  A deletion of a whole
name is checked against the rdatasets that the name has then, but carried out on those that it has when its turn comes.
In between, earlier records of the section may have added types that were not checked for this deletion.  What they
added they were allowed to add, and the deletion takes their additions out of the diff again: what remains in the diff
has been granted.

`Allowed` keeps, besides the grants, where the records of the new rdatasets are: every one has its addition in the diff,
and the diff has nothing but additions for them. -/

namespace Bind9.Update

open List hiding any
open Option hiding all_eq_true mem_map
open Bool hiding and_assoc not_not

open Diff ZoneDb Rbtdb

/-! ### One tuple -/

section tuple

variable {env : ZoneDb.Env} {z z' : Zone} {t : DiffTuple}

theorem diffApply_one (h : diffApply env z [t] = .ok z') : applyGroup env z [t] = .ok z' := by
  have hsplit : [t].splitBy together = [[t]] := rfl
  rw [diffApply, hsplit, foldlM_cons] at h
  obtain ⟨y, hy, h⟩ := bind_eq_ok h
  cases h
  exact hy

theorem diffApply_find_ne {k : Key} (hk : k ≠ tupleKey t) (h : diffApply env z [t] = .ok z') : z'.find k = z.find k :=
  applyGroup_find_ne hk (diffApply_one h)

/-- An addition brings its own rdata only, and the TTL of the rdataset is its TTL. -/
theorem diffApply_add (ht : adds t = true) (h : diffApply env z [t] = .ok z') :
    ∃ s', z'.find (tupleKey t) = some s' ∧ s'.ttl = t.ttl ∧
      ∀ x ∈ s'.rdata.1, x = t.rdata ∨ ∃ s, z.find (tupleKey t) = some s ∧ s.ttl = t.ttl ∧ x ∈ s.rdata.1 := by
  obtain ⟨-, slab, r, hslab, hr, h⟩ := applyGroup_ok (diffApply_one h)
  obtain rfl := fromrdataset_singleton hslab
  rw [applyOp, if_pos ht] at h
  unfold ZoneDb.addrdataset at h
  cases hf : z.find (tupleKey t) with
  | none =>
    rw [hf] at h
    cases h
    exact ⟨_, Zone.find_put_self z _ _, rfl, fun x hx => .inl (mem_singleton.1 hx)⟩
  | some old =>
    rw [hf] at h
    simp only at h
    cases hm : mergeRdata env.ops true ⟨true, true, true⟩ (tupleKey t).type old.ttl t.ttl old.rdata
      ⟨[t.rdata], cons_ne_nil _ _⟩ with
    | error r' =>
      rw [hm] at h
      cases h
      have httl := (mergeRdata_fine hr hm).1
      exact ⟨old, hf, httl.symm, fun x hx => .inr ⟨old, rfl, httl.symm, hx⟩⟩
    | ok m =>
      rw [hm] at h
      cases h
      refine ⟨_, Zone.find_put_self z _ _, rfl, fun x hx => ?_⟩
      unfold mergeRdata at hm
      split at hm
      · cases hm
      next hne =>
        have httl : t.ttl = old.ttl := by simpa using hne
        rw [merge_eq hm, mem_mergeLoop] at hx
        obtain hx | hx := hx
        · exact .inr ⟨old, rfl, httl.symm, hx⟩
        · exact .inl (mem_singleton.1 (mem_of_mem_filter hx))

/-- A deletion finds its record, and leaves the others. -/
theorem diffApply_del (ht : adds t = false) (h : diffApply env z [t] = .ok z') :
    ∃ s, z.find (tupleKey t) = some s ∧ s.ttl = t.ttl ∧ (∃ y ∈ s.rdata.1, env.ops.compare t.type y t.rdata = .eq) ∧
      ∀ s', z'.find (tupleKey t) = some s' → s'.ttl = s.ttl ∧
        ∀ x ∈ s'.rdata.1, x ∈ s.rdata.1 ∧ env.ops.compare t.type x t.rdata ≠ .eq := by
  obtain ⟨-, slab, r, hslab, hr, h⟩ := applyGroup_ok (diffApply_one h)
  obtain rfl := fromrdataset_singleton hslab
  rw [applyOp, ht, if_neg Bool.false_ne_true] at h
  unfold ZoneDb.subtractrdataset at h
  cases hf : z.find (tupleKey t) with
  | none =>
    rw [hf] at h
    cases h
    obtain h | h | h := hr <;> cases h
  | some old =>
    rw [hf] at h
    simp only at h
    split at h
    · cases h
      obtain h | h | h := hr <;> cases h
    next httl =>
      -- one record less: one of them compares equal
      have hone : ∀ rest : List Rdata, rest = Slab.kept env.ops t.type old.rdata ⟨[t.rdata], cons_ne_nil _ _⟩ →
          old.rdata.1.length - rest.length = 1 → ∃ y ∈ old.rdata.1, env.ops.compare t.type y t.rdata = .eq := by
        intro rest hrest hlen
        by_contra hno
        have hall : rest = old.rdata.1 := by
          rw [hrest, Slab.kept]
          refine filter_eq_self.2 (fun y hy => ?_)
          simp only [any_cons, any_nil, Bool.or_false, not_eq_true', beq_eq_false_iff_ne, ne_eq]
          exact fun he => hno ⟨y, hy, he⟩
        rw [hall] at hlen
        omega
      have hkept : ∀ x ∈ Slab.kept env.ops t.type old.rdata ⟨[t.rdata], cons_ne_nil _ _⟩,
          x ∈ old.rdata.1 ∧ env.ops.compare t.type x t.rdata ≠ .eq := by
        intro x hx
        obtain ⟨hx, hne⟩ := mem_filter.1 hx
        refine ⟨hx, fun he => ?_⟩
        simp [he] at hne
      refine ⟨old, rfl, (not_not.1 httl).symm, ?_⟩
      cases hm : Slab.subtract env.ops (tupleKey t).type.base true old.rdata ⟨[t.rdata], cons_ne_nil _ _⟩ true with
      | ok rest =>
        rw [hm] at h
        cases h
        obtain ⟨hrest, hlen⟩ := subtract_exact hm
        refine ⟨hone rest.1 hrest hlen, fun s' hs' => ?_⟩
        rw [Zone.find_put_self] at hs'
        cases hs'
        refine ⟨rfl, fun x hx => hkept x ?_⟩
        rw [← show rest.1 = Slab.kept env.ops t.type _ _ from hrest]
        exact hx
      | error r' =>
        obtain rfl | ⟨rfl, hnil, hlen⟩ := subtract_exact_error hm
        · rw [hm] at h
          cases h
          obtain h | h | h := hr <;> cases h
        rw [hm] at h
        cases h
        refine ⟨hone _ rfl ?_, fun s' hs' => ?_⟩
        · rw [show Slab.kept env.ops t.type old.rdata ⟨[t.rdata], cons_ne_nil _ _⟩ = [] from hnil, length_nil,
            Nat.sub_zero, hlen]
          rfl
        · rw [Zone.find_erase_self] at hs'
          cases hs'

end tuple

/-! ### The diff -/

section diff

variable {ops : RdataOps} (hl : DbDiff.Lawful ops)

theorem sameTuple_iff {a b : DiffTuple} : sameTuple ops a b = true ↔
    a.name.lower = b.name.lower ∧ a.rdclass = b.rdclass ∧ a.type = b.type ∧ ops.compare a.type a.rdata b.rdata = .eq ∧
      a.ttl = b.ttl := by
  rw [sameTuple, and_eq_true, Rr.same_iff, beq_iff_eq]
  simp only [rrOf, and_assoc]

include hl

theorem rdataCovers_congr {type : UInt16} {a b : Rdata} (h : ops.compare type a b = .eq) :
    ZoneDb.rdataCovers type a = ZoneDb.rdataCovers type b := by
  have hcovers := hl.covers type a b h
  unfold ZoneDb.rdataCovers
  unfold DbDiff.rdataCovers at hcovers
  by_cases ht : type = rrsig
  · rw [if_pos ht, if_pos ht]
    have hsig : DbDiff.issig type = true := by
      rw [ht]
      rfl
    rw [if_pos hsig, if_pos hsig] at hcovers
    exact UInt16.toNat_inj.1 hcovers
  · rw [if_neg ht, if_neg ht]

theorem tupleKey_congr {a b : DiffTuple} (h : sameTuple ops a b = true) : tupleKey a = tupleKey b := by
  obtain ⟨hname, -, htype, hrdata, -⟩ := sameTuple_iff.1 h
  unfold tupleKey rrKey
  rw [hname, rdataCovers_congr hl hrdata, htype]

omit hl

variable {diff : Tuples}

theorem mem_appendminimal {t x : DiffTuple} (h : x ∈ (appendminimal ops diff t).1) : x ∈ diff ∨ x = t := by
  unfold appendminimal at h
  obtain ⟨hnone, -⟩ | ⟨ot, rest, hsome, -, hp⟩ := unlinkSame_spec t diff
  · rw [hnone] at h
    exact (mem_append.1 h).imp id mem_singleton.1
  have hsub : ∀ {y}, y ∈ rest → y ∈ diff := fun hy => hp.mem_iff.2 (mem_cons_of_mem ot hy)
  rw [hsome] at h
  simp only at h
  split at h
  · exact (mem_append.1 h).imp hsub mem_singleton.1
  · exact .inl (hsub h)

/-- What is about something else stays. -/
theorem mem_appendminimal_of_ne {t x : DiffTuple} (hx : x ∈ diff) (hne : sameTuple ops x t = false) :
    x ∈ (appendminimal ops diff t).1 := by
  unfold appendminimal
  obtain ⟨hnone, -⟩ | ⟨ot, rest, hsome, hot, hp⟩ := unlinkSame_spec t diff
  · rw [hnone]
    exact mem_append_left _ hx
  obtain rfl | hrest := mem_cons.1 (hp.mem_iff.1 hx)
  · cases hne.symm.trans hot
  rw [hsome]
  simp only
  split
  · exact mem_append_left _ hrest
  · exact hrest

/-- A tuple that meets only tuples of its kind is in the diff then. -/
theorem self_mem_appendminimal {t : DiffTuple}
    (h : ∀ b ∈ diff, sameTuple ops b t = true → t.op = b.op) : t ∈ (appendminimal ops diff t).1 := by
  unfold appendminimal
  obtain ⟨hnone, -⟩ | ⟨ot, rest, hsome, hot, hp⟩ := unlinkSame_spec t diff
  · rw [hnone]
    exact mem_append_right _ (mem_singleton_self t)
  rw [hsome]
  simp only
  rw [if_pos (h ot (hp.mem_iff.2 mem_cons_self) hot)]
  exact mem_append_right _ (mem_singleton_self t)

/-- A tuple that meets one of another kind, and only such, is not in the diff then. -/
theorem appendminimal_cancels {t b x : DiffTuple} (hb : b ∈ diff) (hs : sameTuple ops b t = true)
    (h : ∀ b ∈ diff, sameTuple ops b t = true → t.op ≠ b.op) (hx : x ∈ (appendminimal ops diff t).1) : x ∈ diff := by
  unfold appendminimal at hx
  obtain ⟨-, hno⟩ | ⟨ot, rest, hsome, hot, hp⟩ := unlinkSame_spec t diff
  · cases hs.symm.trans (hno b hb)
  rw [hsome] at hx
  simp only at hx
  rw [if_neg (h ot (hp.mem_iff.2 mem_cons_self) hot)] at hx
  exact hp.mem_iff.2 (mem_cons_of_mem ot hx)

end diff

/-! ### What the policy grants -/

/-- Whatever is in the diff was granted; the records of the rdatasets that `V` lacks have their additions in the diff,
which has no deletions there. -/
structure Allowed (env : UpdateEnv) (p : Policy) (V : Zone) (s : Pending) : Prop where
  granted : ∀ t ∈ s.diff, p.grants t.name t.type = true
  present : ∀ k set, V.find k = none → s.ver.find k = some set → ∀ x ∈ set.rdata.1,
    ∃ b ∈ s.diff, tupleKey b = k ∧ b.rdclass = env.rdclass ∧ b.ttl = set.ttl ∧ env.ops.compare k.type.base b.rdata x = .eq
  added : ∀ b ∈ s.diff, V.find (tupleKey b) = none → b.op = .add

section allowed

variable {env : UpdateEnv} {p : Policy} {V : Zone} {s s' : Pending}

theorem Allowed.start (p : Policy) (V : Zone) : Allowed env p V ⟨V, [], false⟩ where
  granted _ h := by cases h
  present k set hk hset := by
    rw [hk] at hset
    cases hset
  added _ h := by cases h

/-- What a tuple may do: it is granted, or it deletes from an rdataset that `V` lacks. -/
def Permitted (p : Policy) (V : Zone) (t : DiffTuple) : Prop :=
  p.grants t.name t.type = true ∨ t.op = .del ∧ V.find (tupleKey t) = none

variable (hl : DbDiff.Lawful env.ops)
include hl

theorem doOneTuple_add {t : DiffTuple} (h : Allowed env p V s) (hop : t.op = .add) (hclass : t.rdclass = env.rdclass)
    (hg : p.grants t.name t.type = true) (hok : doOneTuple env s t = .ok s') : Allowed env p V s' := by
  obtain ⟨ver, hver, hok⟩ := bind_eq_ok hok
  cases hok
  have hadds : adds t = true := by
    rw [adds, hop]
    rfl
  refine ⟨fun x hx => ?_, fun k set hk hset x hx => ?_, fun b hb hk => ?_⟩
  · obtain hx | rfl := mem_appendminimal hx
    · exact h.granted x hx
    · exact hg
  · -- an addition that is replaced is replaced by one for the same record
    have hkeep : ∀ b ∈ s.diff, tupleKey b = k → b.rdclass = env.rdclass → b.ttl = set.ttl →
        env.ops.compare k.type.base b.rdata x = .eq → ∃ c ∈ (appendminimal env.ops s.diff t).1, tupleKey c = k ∧
          c.rdclass = env.rdclass ∧ c.ttl = set.ttl ∧ env.ops.compare k.type.base c.rdata x = .eq := by
      intro b hb hbk hbc hbt hbx
      cases hsame : sameTuple env.ops b t with
      | false => exact ⟨b, mem_appendminimal_of_ne hb hsame, hbk, hbc, hbt, hbx⟩
      | true =>
        have htk : tupleKey t = k := (tupleKey_congr hl hsame).symm.trans hbk
        obtain ⟨-, -, htype, hrd, httl⟩ := sameTuple_iff.1 hsame
        have _ := hl.trans
        refine ⟨t, self_mem_appendminimal (fun c hc hct => ?_), htk, hclass, httl.symm.trans hbt, ?_⟩
        · exact hop.trans (h.added c hc (by rw [tupleKey_congr hl hct, htk]; exact hk)).symm
        · have hbase : k.type.base = b.type := by
            rw [← hbk]
            rfl
          rw [hbase] at hbx ⊢
          exact Std.TransCmp.eq_trans (Std.OrientedCmp.eq_symm hrd) hbx
    by_cases hkt : k = tupleKey t
    · subst hkt
      obtain ⟨set', hset', httl, hfrom⟩ := diffApply_add hadds hver
      have heq : set' = set := some_inj.1 (hset'.symm.trans hset)
      subst heq
      obtain rfl | ⟨old, hold, hottl, hx⟩ := hfrom x hx
      · have _ := hl.trans
        refine ⟨t, self_mem_appendminimal (fun c hc hct => ?_), rfl, hclass, httl.symm, Std.ReflCmp.compare_self⟩
        exact hop.trans (h.added c hc (by rw [tupleKey_congr hl hct]; exact hk)).symm
      · obtain ⟨b, hb, hbk, hbc, hbt, hbx⟩ := h.present _ old hk hold x hx
        exact hkeep b hb hbk hbc (hbt.trans (hottl.trans httl.symm)) hbx
    rw [diffApply_find_ne hkt hver] at hset
    obtain ⟨b, hb, hbk, hbc, hbt, hbx⟩ := h.present k set hk hset x hx
    exact hkeep b hb hbk hbc hbt hbx
  · obtain hb | rfl := mem_appendminimal hb
    · exact h.added b hb hk
    · exact hop

theorem delete_cancels {t : DiffTuple} {ver : Zone} (h : Allowed env p V s) (hop : t.op = .del) (hclass : t.rdclass = env.rdclass)
    (hk : V.find (tupleKey t) = none) (hver : diffApply env.zonedb s.ver [t] = .ok ver) {x : DiffTuple}
    (hx : x ∈ (appendminimal env.ops s.diff t).1) : x ∈ s.diff := by
  have hdel : adds t = false := by
    rw [adds, hop]
    rfl
  obtain ⟨set, hset, httl, ⟨y, hy, hyt⟩, -⟩ := diffApply_del hdel hver
  obtain ⟨b, hb, hbk, hbc, hbt, hby⟩ := h.present _ set hk hset y hy
  have hkey : b.name.lower = t.name.lower ∧ b.type = t.type := by
    have hname : (tupleKey b).name = (tupleKey t).name := by rw [hbk]
    have htype : (tupleKey b).type.base = (tupleKey t).type.base := by rw [hbk]
    exact ⟨hname, htype⟩
  have _ := hl.trans
  have hsame : sameTuple env.ops b t = true := by
    refine sameTuple_iff.2 ⟨hkey.1, hbc.trans hclass.symm, hkey.2, ?_, hbt.trans httl⟩
    rw [hkey.2]
    exact Std.TransCmp.eq_trans hby hyt
  refine appendminimal_cancels hb hsame (fun c hc hct hop' => ?_) hx
  have hadd := h.added c hc (by rw [tupleKey_congr hl hct]; exact hk)
  rw [hop, hadd] at hop'
  cases hop'

theorem doOneTuple_del {t : DiffTuple} (h : Allowed env p V s) (hop : t.op = .del) (hclass : t.rdclass = env.rdclass)
    (hp : Permitted p V t) (hok : doOneTuple env s t = .ok s') : Allowed env p V s' := by
  obtain ⟨ver, hver, hok⟩ := bind_eq_ok hok
  cases hok
  have hdel : adds t = false := by
    rw [adds, hop]
    rfl
  refine ⟨fun x hx => ?_, fun k set hk hset x hx => ?_, fun b hb hk => ?_⟩
  · obtain hg | ⟨-, hnew⟩ := hp
    · obtain hx | rfl := mem_appendminimal hx
      · exact h.granted x hx
      · exact hg
    · exact h.granted x (delete_cancels hl h hop hclass hnew hver hx)
  · by_cases hkt : k = tupleKey t
    · subst hkt
      obtain ⟨old, hold, -, -, hrest⟩ := diffApply_del hdel hver
      obtain ⟨httl, hkept⟩ := hrest set hset
      obtain ⟨hx, hne⟩ := hkept x hx
      obtain ⟨b, hb, hbk, hbc, hbt, hbx⟩ := h.present _ old hk hold x hx
      refine ⟨b, mem_appendminimal_of_ne hb (eq_false_iff.2 (fun hsame => hne ?_)), hbk, hbc, hbt.trans httl.symm, hbx⟩
      obtain ⟨-, -, htype, hrd, -⟩ := sameTuple_iff.1 hsame
      have _ := hl.trans
      rw [htype] at hrd
      exact Std.TransCmp.eq_trans (Std.OrientedCmp.eq_symm hbx) hrd
    · rw [diffApply_find_ne hkt hver] at hset
      obtain ⟨b, hb, hbk, hbc, hbt, hbx⟩ := h.present k set hk hset x hx
      refine ⟨b, mem_appendminimal_of_ne hb (eq_false_iff.2 (fun hsame => hkt ?_)), hbk, hbc, hbt, hbx⟩
      exact hbk.symm.trans (tupleKey_congr hl hsame)
  · obtain hb' | rfl := mem_appendminimal hb
    · exact h.added b hb' hk
    · exact h.added b (delete_cancels hl h hop hclass hk hver hb) hk

/-- What the loops hand over is of the class of the zone, adds or deletes, and is permitted. -/
def Proper (env : UpdateEnv) (p : Policy) (V : Zone) (t : DiffTuple) : Prop :=
  t.rdclass = env.rdclass ∧ (t.op = .add ∧ p.grants t.name t.type = true ∨ t.op = .del ∧ Permitted p V t)

theorem doOneTuple_allowed {t : DiffTuple} (h : Allowed env p V s) (ht : Proper env p V t)
    (hok : doOneTuple env s t = .ok s') : Allowed env p V s' := by
  obtain ⟨hclass, ⟨hop, hg⟩ | ⟨hop, hp⟩⟩ := ht
  · exact doOneTuple_add hl h hop hclass hg hok
  · exact doOneTuple_del hl h hop hclass hp hok

theorem doDiff_allowed {ts : Tuples} (h : Allowed env p V s) (hts : ∀ t ∈ ts, Proper env p V t)
    (hok : doDiff env s ts = .ok s') : Allowed env p V s' := by
  apply Hoare.foldlM_invariant (Allowed env p V) _ h hok
  intro t ht s s' h hone
  exact doOneTuple_allowed hl h (hts t ht) hone

end allowed

/-! ### The records of the section -/

section records

variable {env : UpdateEnv} {p : Policy} {V : Zone} {s s' : Pending} {u : UpdateRr}

variable {name : Name} {type covers : UInt16} {f : Found}

theorem mem_foreachRr {z : Zone} (htype : type ≠ any) (h : f ∈ foreachRr z name type covers) : f.type = type := by
  rw [foreachRr, if_neg htype] at h
  cases hfind : z.find (rrsetKey name type covers) with
  | none =>
    rw [hfind] at h
    cases h
  | some set =>
    rw [hfind] at h
    obtain ⟨r, -, rfl⟩ := mem_map.1 h
    rfl

/-- A record that a walk over the whole name comes to is not in the NSEC3 tree. -/
theorem mem_foreachRr_any {z : Zone} {covers : UInt16} (h : f ∈ foreachRr z name any covers) : f.type ≠ nsec3 := by
  rw [foreachRr, if_pos rfl] at h
  obtain ⟨e, he, hf⟩ := mem_flatMap.1 h
  obtain ⟨r, -, rfl⟩ := mem_map.1 hf
  obtain ⟨-, he⟩ := mem_filter.1 he
  intro hbase
  have hbase : e.1.type.base = nsec3 := hbase
  simp [Key.isNsec3, hbase] at he

theorem grants_of_ssuCheckall {type : UInt16} {rdata : Rdata} (h : ssuCheckall p V name = true)
    (hsig : type ≠ rrsig) (hnsec : type ≠ nsec) (hnsec3 : type ≠ nsec3) (hset : V.find (rrKey name type rdata) ≠ none) :
    p.grants name type = true := by
  obtain ⟨set, hset⟩ := ne_none_iff_exists'.1 hset
  obtain ⟨e, he, -⟩ := map_eq_some_iff.1 hset
  have hkey : e.1 = ⟨name.lower, type, 0⟩ := by
    have hkey : e.1 = rrKey name type rdata := by simpa using find?_some he
    rw [hkey, rrKey, ZoneDb.rdataCovers, if_neg hsig]
  have hmem : e ∈ nodeRrsets V name := by
    refine mem_filter.2 ⟨mem_of_find?_eq_some he, ?_⟩
    rw [hkey]
    simpa [Key.isNsec3, hnsec3] using (by decide : (0 : UInt16) ≠ nsec3)
  have hrule := all_eq_true.1 h e hmem
  rw [ssuCheckrule, hkey] at hrule
  simpa [hsig, hnsec] using hrule

variable (hl : DbDiff.Lawful env.ops)
include hl

variable {predicate : Found → Bool}

theorem deleteIf_allowed (h : Allowed env p V s) (hp : ∀ f ∈ foreachRr s.ver name type covers, predicate f = true →
      Permitted p V (rrTuple env .del name f.ttl f.type f.rdata))
    (hok : deleteIf env predicate s name type covers = .ok s') : Allowed env p V s' := by
  apply doDiff_allowed hl h _ hok
  intro t ht
  obtain ⟨f, hf, rfl⟩ := mem_map.1 ht
  obtain ⟨hf, hpred⟩ := mem_filter.1 hf
  exact ⟨rfl, .inr ⟨rfl, hp f hf hpred⟩⟩

theorem deleteIf_allowed_of_type (h : Allowed env p V s)
    (htype : type ≠ any) (hg : p.grants name type = true) (hok : deleteIf env predicate s name type covers = .ok s') :
    Allowed env p V s' := by
  refine deleteIf_allowed hl h (fun f hf _ => .inl ?_) hok
  have hf := mem_foreachRr htype hf
  rw [← hf] at hg
  exact hg

theorem deleteIf_allowed_of_name (h : Allowed env p V s)
    (hpred : ∀ f, predicate f = true → typeNotDnssec f = true) (hall : ssuCheckall p V name = true)
    (hok : deleteIf env predicate s name any 0 = .ok s') : Allowed env p V s' := by
  refine deleteIf_allowed hl h (fun f hf hf' => ?_) hok
  have hdnssec : f.type ≠ rrsig ∧ f.type ≠ nsec := by simpa [typeNotDnssec] using hpred f hf'
  by_cases hset : V.find (rrKey name f.type f.rdata) = none
  · exact .inr ⟨rfl, hset⟩
  · exact .inl (grants_of_ssuCheckall hall hdnssec.1 hdnssec.2 (mem_foreachRr_any hf) hset)

omit hl in
theorem addRrPrepareAction_proper {q q' : Prepared} (hg : p.grants u.name u.type = true) (hf : f.type = u.type)
    (hq : ∀ t ∈ q.delDiff ++ q.addDiff, Proper env p V t) (hok : addRrPrepareAction env u q f = .ok q') :
    ∀ t ∈ q'.delDiff ++ q'.addDiff, Proper env p V t := by
  have hdel : Proper env p V (rrTuple env .del u.name f.ttl f.type f.rdata) := by
    rw [hf]
    exact ⟨rfl, .inr ⟨rfl, .inl hg⟩⟩
  have hadd : Proper env p V (rrTuple env .add u.name u.ttl f.type f.rdata) := by
    rw [hf]
    exact ⟨rfl, .inl ⟨rfl, hg⟩⟩
  rw [forall_mem_append] at hq ⊢
  unfold addRrPrepareAction at hok
  simp only at hok
  split at hok
  · cases hok
    exact hq
  obtain ⟨replaced, -, hok⟩ := bind_eq_ok hok
  split at hok
  · cases hok
    exact ⟨forall_mem_append.2 ⟨hq.1, forall_mem_singleton.2 hdel⟩, hq.2⟩
  split at hok
  · cases hok
    refine ⟨forall_mem_append.2 ⟨hq.1, forall_mem_singleton.2 hdel⟩, ?_⟩
    split
    · exact hq.2
    · exact forall_mem_append.2 ⟨hq.2, forall_mem_singleton.2 hadd⟩
  · cases hok
    exact hq

theorem addRr_allowed (h : Allowed env p V s) (htype : u.type ≠ any) (hg : p.grants u.name u.type = true)
    (hok : addRr env s u = .ok s') : Allowed env p V s' := by
  obtain ⟨q, hq, hok⟩ := bind_eq_ok hok
  have hproper : ∀ t ∈ q.delDiff ++ q.addDiff, Proper env p V t := by
    have hstart : ∀ t ∈ ([] : Tuples) ++ [], Proper env p V t := fun t ht => by cases ht
    apply Hoare.foldlM_invariant (fun q => ∀ t ∈ q.delDiff ++ q.addDiff, Proper env p V t) _ hstart hq
    intro f hf q q' hq hok
    exact addRrPrepareAction_proper hg (mem_foreachRr htype hf) hq hok
  rw [forall_mem_append] at hproper
  split at hok
  · cases hok
    exact h
  obtain ⟨s1, hdel, hok⟩ := bind_eq_ok hok
  obtain ⟨s2, hadd, hok⟩ := bind_eq_ok hok
  have h1 := doDiff_allowed hl h hproper.1 hdel
  have h2 := doDiff_allowed hl h1 hproper.2 hadd
  exact doOneTuple_add hl h2 rfl rfl hg hok

/-- The policy's answer for a record of the section. -/
def Granted (p : Policy) (V : Zone) (u : UpdateRr) : Prop :=
  u.type ≠ any ∧ p.grants u.name u.type = true ∨ u.type = any ∧ ssuCheckall p V u.name = true

theorem updateAdd_allowed (h : Allowed env p V s) (htype : u.type ≠ any) (hg : p.grants u.name u.type = true)
    (hok : updateAdd env s u = .ok s') : Allowed env p V s' := by
  have hsoa : Allowed env p V { s with soaSerialChanged := true } := ⟨h.granted, h.present, h.added⟩
  unfold updateAdd at hok
  split at hok
  · cases hok
    exact h
  split at hok
  · split at hok
    · cases hok
      exact h
    · obtain ⟨ok, -, hok⟩ := bind_eq_ok hok
      split at hok
      · cases hok
        exact h
      split at hok
      · cases hok
        exact hsoa
      · exact addRr_allowed hl hsoa htype hg hok
  split at hok
  · cases hok
    exact h
  · exact addRr_allowed hl h htype hg hok

theorem updateDelete_allowed (h : Allowed env p V s) (hg : Granted p V u) (hok : updateDelete env s u = .ok s') :
    Allowed env p V s' := by
  unfold updateDelete at hok
  obtain ⟨htype, hg⟩ | ⟨htype, hall⟩ := hg
  · rw [if_neg htype] at hok
    split at hok
    · cases hok
      exact h
    · exact deleteIf_allowed_of_type hl h htype hg hok
  rw [if_pos htype] at hok
  split at hok
  · refine deleteIf_allowed_of_name hl h (fun f hf => ?_) hall hok
    simp only [typeNotSoaNorNs, and_eq_true] at hf
    exact and_eq_true _ _ ▸ ⟨hf.1.2, hf.2⟩
  · exact deleteIf_allowed_of_name hl h (fun _ => id) hall hok

theorem updateDeleteRr_allowed (h : Allowed env p V s) (htype : u.type ≠ any) (hg : p.grants u.name u.type = true)
    (hok : updateDeleteRr env s u = .ok s') : Allowed env p V s' := by
  unfold updateDeleteRr at hok
  split at hok
  · cases hok
    exact h
  · exact deleteIf_allowed_of_type hl h htype hg hok

omit hl in
theorem ne_any_of_ismeta (h : ismeta u.type = false) : u.type ≠ any := by
  intro htype
  rw [htype] at h
  exact absurd h (by decide)

omit hl in
theorem prescanPolicy_ok (h : prescanPolicy p V u = .ok ()) : Granted p V u := by
  unfold prescanPolicy at h
  by_cases htype : u.type = any
  · rw [if_neg (not_not.2 htype)] at h
    split at h
    next hall => exact .inr ⟨htype, hall⟩
    · cases h
  rw [if_pos htype] at h
  split at h
  next hg => exact .inl ⟨htype, hg⟩
  · cases h

omit hl in
/-- Only a deletion has the type ANY, and the policy has been asked. -/
theorem prescanRr_ok (h : prescanRr env (some p) V u = .ok ()) :
    (u.updateClass = env.rdclass ∨ u.updateClass ≠ classAny → u.type ≠ any) ∧ Granted p V u := by
  unfold prescanRr at h
  split at h
  · cases h
  obtain ⟨_, hform, h⟩ := bind_eq_ok h
  obtain ⟨-, -, h⟩ := bind_eq_ok h
  refine ⟨fun hclass => ?_, prescanPolicy_ok h⟩
  unfold prescanForm at hform
  split at hform
  · split at hform
    · cases hform
    next hmeta => exact ne_any_of_ismeta (eq_false_iff.2 hmeta)
  next hne =>
    have hany : u.updateClass ≠ classAny := hclass.resolve_left hne
    rw [if_neg hany] at hform
    split at hform
    · split at hform
      · cases hform
      next hmeta => exact ne_any_of_ismeta (eq_false_iff.2 (fun h => hmeta (.inr h)))
    · cases hform

theorem updateRr_allowed (h : Allowed env p V s) (hu : prescanRr env (some p) V u = .ok ())
    (hok : updateRr env s u = .ok s') : Allowed env p V s' := by
  obtain ⟨hany, hg⟩ := prescanRr_ok hu
  have hof : u.updateClass = env.rdclass ∨ u.updateClass ≠ classAny → u.type ≠ any ∧ p.grants u.name u.type = true := by
    intro hclass
    obtain hg | ⟨htype, -⟩ := hg
    · exact hg
    · exact absurd htype (hany hclass)
  unfold updateRr at hok
  split at hok
  next hclass => exact updateAdd_allowed hl h (hof (.inl hclass)).1 (hof (.inl hclass)).2 hok
  · split at hok
    · exact updateDelete_allowed hl h hg hok
    next hclass =>
      split at hok
      · exact updateDeleteRr_allowed hl h (hof (.inr hclass)).1 (hof (.inr hclass)).2 hok
      · cases hok
        exact h

theorem updateSection_allowed {us : List UpdateRr} (hok : updateSection env (some p) V us = .ok s) : Allowed env p V s := by
  obtain ⟨_, hscan, hok⟩ := bind_eq_ok hok
  apply Hoare.foldlM_invariant (Allowed env p V) _ (Allowed.start p V) hok
  intro u hu s s' h hone
  exact updateRr_allowed hl h (Hoare.forM_ok hscan u hu) hone

end records

/-! ### The update section -/

/-- Once the update section has been carried out, the policy grants every tuple of the diff. -/
theorem update_within_policy (env : UpdateEnv) (hl : DbDiff.Lawful env.ops) (p : Policy) (V : Zone) (us : List UpdateRr)
    (s : Pending) (hok : updateSection env (some p) V us = .ok s) : ∀ t ∈ s.diff, p.grants t.name t.type = true :=
  (updateSection_allowed hl hok).granted

/-- A zone of class IN at the root, with rdata compared as bytes. -/
def rootEnv : UpdateEnv :=
  ⟨⟨DbDiff.byteOps, .mergeSort, 1⟩, ⟨[[]]⟩, 65534, fun _ a b => compare a b, fun _ _ _ => true⟩

/-- The signer `k.` may change TXT records everywhere. -/
def txtPolicy : Policy where
  oracle := ⟨fun _ _ _ => false, fun _ _ _ => false, fun _ _ _ _ => false, fun _ _ _ => false⟩
  rules := [⟨true, .subdomain, ⟨[[107], []]⟩, ⟨[[]]⟩, [16], by decide⟩]
  who := ⟨some ⟨[[107], []]⟩, none, none⟩

/-- Two additions, and the deletion of the second name. -/
def txtSection : List UpdateRr :=
  [⟨⟨[[97], []]⟩, 1, 300, 16, 0, [1, 120]⟩, ⟨⟨[[98], []]⟩, 1, 300, 16, 0, [1, 120]⟩, ⟨⟨[[98], []]⟩, 255, 0, 255, 0, []⟩]

theorem update_within_policy_txt : ∃ s, updateSection rootEnv (some txtPolicy) [] txtSection = .ok s ∧
    s.diff = [⟨.add, ⟨[[97], []]⟩, 300, 1, 16, [1, 120]⟩] ∧ ∀ t ∈ s.diff, txtPolicy.grants t.name t.type = true := by
  have hrun : (updateSection rootEnv (some txtPolicy) [] txtSection).toOption.map Pending.diff =
      some [⟨.add, ⟨[[97], []]⟩, 300, 1, 16, [1, 120]⟩] := by decide +kernel
  cases hok : updateSection rootEnv (some txtPolicy) [] txtSection with
  | error e =>
    rw [hok] at hrun
    cases hrun
  | ok s =>
    rw [hok] at hrun
    refine ⟨s, rfl, some_inj.1 hrun, ?_⟩
    exact update_within_policy rootEnv DbDiff.lawful_byteOps txtPolicy [] txtSection s hok

end Bind9.Update
