import Mathlib
import Bind9.Xfrin
import Bind9.ZoneAdmit
import Bind9.Lib.Runs

/-! # Diffs that are applied in pieces

A transfer applies its tuples whenever a hundred of them have come in, wherever that cuts the sequence.  Inside a run of
tuples that `diff_apply` would collect in one rdataset, a cut can be noticed: the tuple behind it is then the first of
an rdataset and gives it its class and its TTL, a record that is deleted on both sides of the cut is deleted twice, and
the limit on the number of tuples in one rdataset counts from the cut on. -/

namespace Bind9.ZoneDb

open List hiding Disjoint disjoint_comm
open Function
open Option hiding all_map

open Diff Rbtdb Std Runs

abbrev rdatas (ts : Tuples) : List Rdata := ts.map DiffTuple.rdata

/-- `dns_rdataslab_fromrdataset` has an upper limit. -/
def Short (ts : Tuples) : Prop := ts.length ≤ 0xffff

/-- The zone accepts the tuples of one run, but for their number. -/
def Admits (env : Env) (v : View) : Tuples → Prop
  | [] => True
  | t :: ts =>
    t.rdclass = env.rdclass ∧
      if adds t then (∀ p ∈ v (tupleKey t), p.1 = t.ttl) ∧ Takes env.ops v.rdata (tupleKey t) (rdatas (t :: ts))
      else ∃ p ∈ v (tupleKey t), p.1 = t.ttl ∧ members env.ops t.type (rdatas (t :: ts)) ⊆ p.2

/-- What a run of tuples makes of a view. -/
noncomputable def after (ops : RdataOps) (v : View) (ts : Tuples) : View := ts.foldl (View.apply ops) v

/-- A cut that nobody notices, between the two parts of a run. -/
def CleanCut (env : Env) : Tuples → Tuples → Prop
  | t :: ts, u :: us =>
    u.rdclass = env.rdclass ∧ u.ttl = t.ttl ∧
      (adds t = false → Disjoint (members env.ops t.type (rdatas (t :: ts))) (members env.ops t.type (rdatas (u :: us))))
  | _, _ => True

/-- The tuples of a run share the operation and the rdataset. -/
def IsRun (t : DiffTuple) (ts : Tuples) : Prop := ∀ u ∈ ts, tupleKey u = tupleKey t ∧ u.op = t.op

section groups

variable {env : Env} {z : Zone}

theorem fromrdataset_iff {type : UInt16} [TransCmp (env.ops.compare type)] {rdata : List Rdata} (hne : rdata ≠ []) :
    (∃ slab, fromrdataset env type rdata = .ok slab) ↔
      rdata.length ≤ 0xffff ∧ (env.ops.issingleton type = true → Fits env.ops type 1 (members env.ops type rdata)) := by
  obtain ⟨hord, hmem, -⟩ := dedup_spec (env.qsort.sorted (env.ops.compare type) rdata)
  have hperm := env.qsort.perm (env.ops.compare type) rdata
  rw [members_congr (fun x => hperm.mem_iff)] at hmem
  have hitems : dedup (env.ops.compare type) (env.qsort.sort (env.ops.compare type) rdata) ≠ [] := by
    intro h
    rw [h] at hmem
    obtain ⟨x, hx⟩ := @members_nonempty env.ops type _ _ hne
    rw [← hmem] at hx
    obtain ⟨y, hy, -⟩ := hx
    cases hy
  rw [← hmem, hord.fits_iff]
  unfold fromrdataset
  by_cases hlen : 0xffff < rdata.length
  · rw [if_pos hlen]
    simp [stop, hlen]
  rw [if_neg hlen]
  by_cases hsingle : 1 < (dedup (env.ops.compare type) (env.qsort.sort (env.ops.compare type) rdata)).length ∧
      env.ops.issingleton type = true
  · rw [if_pos hsingle]
    simp [stop, hsingle]
  · rw [if_neg hsingle, dif_neg hitems]
    refine ⟨fun _ => ⟨Nat.le_of_not_lt hlen, fun hs => Nat.le_of_not_lt (fun h => hsingle ⟨h, hs⟩)⟩, fun _ => ⟨_, rfl⟩⟩

/-- The slab of a run. -/
theorem fromrdataset_sound {type : UInt16} [TransCmp (env.ops.compare type)] {rdata : List Rdata} {slab : Slab}
    (h : fromrdataset env type rdata = .ok slab) :
    InOrder env.ops type slab.1 ∧ members env.ops type slab.1 = members env.ops type rdata ∧
      slab.1.length ≤ 0xffff ∧ (env.ops.issingleton type = true → slab.1.length ≤ 1) := by
  obtain ⟨hord, hmem, -⟩ := fromrdataset_ok h
  have hne : rdata ≠ [] := by
    rintro rfl
    obtain ⟨x, hx⟩ := @members_nonempty env.ops type _ _ slab.2
    rw [hmem] at hx
    obtain ⟨y, hy, -⟩ := hx
    cases hy
  obtain ⟨hlen, hsingle⟩ := (fromrdataset_iff hne).1 ⟨slab, h⟩
  rw [← hmem] at hsingle
  refine ⟨hord, hmem, (length_le_of_members hord hmem.le).trans hlen, fun hs => hord.fits_iff.1 (hsingle hs)⟩

theorem takes_congr {c : Contents} {k : Key} {l m : List Rdata}
    (h : members env.ops k.type.base l = members env.ops k.type.base m) : Takes env.ops c k l ↔ Takes env.ops c k m := by
  have hadd : c.add env.ops k l = c.add env.ops k m := by rw [Contents.add, Contents.add, h]
  constructor
  · rintro ⟨h1, h2, h3⟩
    exact ⟨h ▸ h1, h ▸ h2, hadd ▸ h3⟩
  · rintro ⟨h1, h2, h3⟩
    exact ⟨h ▸ h1, h ▸ h2, hadd ▸ h3⟩

variable (htrans : ∀ type, TransCmp (env.ops.compare type))
include htrans

/-- The database operation on the slab of a run. -/
theorem applyOp_fine (hz : Sound env.ops z) {t : DiffTuple} {l : List Rdata} {slab : Slab}
    (hslab : fromrdataset env t.type l = .ok slab) : (Fine (applyOp env z t slab).2 ↔
      if adds t then (∀ p ∈ view env.ops z (tupleKey t), p.1 = t.ttl) ∧ Takes env.ops (view env.ops z).rdata (tupleKey t) l
      else ∃ p ∈ view env.ops z (tupleKey t), p.1 = t.ttl ∧ members env.ops t.type l ⊆ p.2) ∧
    (Fine (applyOp env z t slab).2 → Sound env.ops (applyOp env z t slab).1) := by
  have _ := htrans t.type
  have _ := htrans (tupleKey t).type.base
  obtain ⟨hord, hmem, hlen, hone⟩ := fromrdataset_sound hslab
  unfold applyOp
  by_cases ha : adds t = true
  · rw [if_pos ha, if_pos ha]
    obtain ⟨hfine, hdone⟩ := @addrdataset_fine _ z (tupleKey t) t.ttl slab _ hz hord hlen hone ⟨true, true, true⟩
    refine ⟨?_, fun h => (hdone h).1⟩
    rw [hfine, ← takes_congr (k := tupleKey t) hmem]
    simp
  rw [if_neg ha, if_neg ha]
  obtain ⟨hfine, hdone⟩ := @subtractrdataset_fine _ z (tupleKey t) t.ttl slab _ hz hord
  refine ⟨?_, hdone⟩
  rw [hfine, ← hmem]
  rfl

omit htrans in
theorem applyGroup_eq_ok {t : DiffTuple} {ts : Tuples} {y : Zone} :
    applyGroup env z (t :: ts) = .ok y ↔ t.rdclass = env.rdclass ∧
      ∃ slab, fromrdataset env t.type (rdatas (t :: ts)) = .ok slab ∧ Fine (applyOp env z t slab).2 ∧
        (applyOp env z t slab).1 = y := by
  constructor
  · intro h
    obtain ⟨hclass, slab, r, hslab, hr, hop⟩ := applyGroup_ok h
    refine ⟨hclass, slab, hslab, ?_, ?_⟩
    · rwa [hop]
    · rw [hop]
  · rintro ⟨hclass, slab, hslab, hfine, rfl⟩
    unfold applyGroup
    simp only
    rw [hclass, beq_self_eq_true]
    rw [hslab]
    change (if Fine (applyOp env z t slab).2 then _ else _) = _
    rw [if_pos hfine]
    rfl

/-- The rdata that a zone accepts for a type that has one rdata only. -/
theorem admits_single (hz : Sound env.ops z) {t : DiffTuple} {ts : Tuples}
    (h : Admits env (view env.ops z) (t :: ts)) (hs : env.ops.issingleton t.type = true) :
    Fits env.ops t.type 1 (members env.ops t.type (rdatas (t :: ts))) := by
  have _ := htrans t.type
  obtain ⟨-, h⟩ := h
  split at h
  · exact (h.2.single hs).mono Set.subset_union_right
  obtain ⟨p, hp, -, hsub⟩ := h
  obtain ⟨s, hf, rfl⟩ := map_eq_some_iff.1 hp
  have hfits := ((hz.ordered _ s hf).fits_iff (n := 1)).2 (hz.single _ s hf hs)
  exact hfits.mono hsub

/-- The body of the loop of `diff_apply` succeeds when the zone accepts the run, and leaves a sound zone. -/
theorem applyGroup_iff (hz : Sound env.ops z) {t : DiffTuple} {ts : Tuples} (hrun : IsRun t ts) :
    ((∃ y, applyGroup env z (t :: ts) = .ok y) ↔ Admits env (view env.ops z) (t :: ts) ∧ Short (t :: ts)) ∧
      ∀ y, applyGroup env z (t :: ts) = .ok y → Sound env.ops y ∧ view env.ops y = after env.ops (view env.ops z) (t :: ts) := by
  have _ := htrans t.type
  have hne : rdatas (t :: ts) ≠ [] := cons_ne_nil _ _
  have hlength : (rdatas (t :: ts)).length = (t :: ts).length := length_map _
  refine ⟨⟨?_, ?_⟩, fun y hy => ⟨?_, (applyGroup_view htrans hrun hz.ordered hy).2⟩⟩
  · rintro ⟨y, hy⟩
    obtain ⟨hclass, slab, hslab, hfine, -⟩ := applyGroup_eq_ok.1 hy
    refine ⟨⟨hclass, (applyOp_fine htrans hz hslab).1.1 hfine⟩, ?_⟩
    rw [Short, ← hlength]
    exact ((fromrdataset_iff hne).1 ⟨slab, hslab⟩).1
  · rintro ⟨hadmits, hshort⟩
    rw [Short, ← hlength] at hshort
    obtain ⟨slab, hslab⟩ := (fromrdataset_iff hne).2 ⟨hshort, admits_single htrans hz hadmits⟩
    exact ⟨_, applyGroup_eq_ok.2 ⟨hadmits.1, slab, hslab, (applyOp_fine htrans hz hslab).1.2 hadmits.2, rfl⟩⟩
  · obtain ⟨-, slab, hslab, hfine, rfl⟩ := applyGroup_eq_ok.1 hy
    exact (applyOp_fine htrans hz hslab).2 hfine

end groups

/-! ### Where a run is cut -/

section cuts

variable {env : Env} {t u : DiffTuple} {ts us : Tuples}

theorem joined {p w : Tuples} (hp : p.IsChain (together · ·)) (hw : w.IsChain (together · ·))
    (h : joins together p w = true) : ∃ t ts u us, p = t :: ts ∧ w = u :: us ∧ IsRun t ts ∧ IsRun t (u :: us) := by
  obtain ⟨a, ha, u, hu, hau⟩ := joins_iff.1 h
  cases p with
  | nil => cases ha
  | cons t ts =>
    cases w with
    | nil => cases hu
    | cons u' us =>
      cases hu
      have hts := run_of_isChain hp
      have hus := run_of_isChain hw
      have hkey : tupleKey a = tupleKey t ∧ a.op = t.op := by
        obtain rfl | hmem := mem_cons.1 (mem_of_getLast? ha)
        · exact ⟨rfl, rfl⟩
        · exact hts a hmem
      obtain ⟨hk, hop⟩ := together_iff.1 hau
      refine ⟨t, ts, u, us, rfl, rfl, hts, forall_mem_cons.2 ⟨⟨hk.symm.trans hkey.1, hop.symm.trans hkey.2⟩, ?_⟩⟩
      intro x hx
      obtain ⟨hxk, hxop⟩ := hus x hx
      exact ⟨hxk.trans (hk.symm.trans hkey.1), hxop.trans (hop.symm.trans hkey.2)⟩

theorem adds_congr (h : u.op = t.op) : adds u = adds t := by rw [adds, adds, h]

theorem after_after (v : View) (p w : Tuples) :
    after env.ops (after env.ops v p) w = after env.ops v (p ++ w) := foldl_append.symm

theorem after_adds (v : View) (ha : adds t = true) (hts : IsRun t ts) :
    after env.ops v (t :: ts) = v.add env.ops (tupleKey t) t.ttl (rdatas (t :: ts)) := by
  rw [after, foldl_cons, View.apply, if_pos ha,
    foldl_apply_adds v (fun x hx => ⟨(adds_congr (hts x hx).2).trans ha, (hts x hx).1⟩)]
  rfl

theorem after_dels (v : View) (ha : adds t = false) (hts : IsRun t ts) :
    after env.ops v (t :: ts) = v.del env.ops (tupleKey t) (rdatas (t :: ts)) := by
  rw [after, foldl_cons, View.apply, ha, if_neg Bool.false_ne_true,
    foldl_apply_dels v (fun x hx => ⟨(adds_congr (hts x hx).2).trans ha, (hts x hx).1⟩)]
  rfl

theorem admits_cut_adds (v : View) (ha : adds t = true) (hts : IsRun t ts) (hus : IsRun t (u :: us)) :
    Admits env v (t :: ts) ∧ Admits env (after env.ops v (t :: ts)) (u :: us) ↔
      Admits env v ((t :: ts) ++ (u :: us)) ∧ CleanCut env (t :: ts) (u :: us) := by
  obtain ⟨hk, hop⟩ := hus u mem_cons_self
  have hau : adds u = true := (adds_congr hop).trans ha
  rw [after_adds v ha hts, cons_append]
  simp only [Admits, CleanCut, ha, hau, hk, if_true, reduceCtorEq, false_implies, and_true]
  have happ : rdatas (t :: (ts ++ u :: us)) = rdatas (t :: ts) ++ rdatas (u :: us) := by simp
  rw [happ, ← takes_append]
  by_cases hv : ∀ p ∈ v (tupleKey t), p.1 = t.ttl
  · have httl : (∀ p ∈ v.add env.ops (tupleKey t) t.ttl (rdatas (t :: ts)) (tupleKey t), p.1 = u.ttl) ↔ u.ttl = t.ttl := by
      rw [← View.load_eq_add hv, View.load, update_self]
      simp only [mem_def, Option.some.injEq, forall_eq']
      exact eq_comm
    rw [httl, ← View.load_eq_add hv, View.rdata_load]
    tauto
  · tauto

theorem admits_cut_dels (htrans : ∀ type, TransCmp (env.ops.compare type)) (v : View) (ha : adds t = false)
    (hts : IsRun t ts) (hus : IsRun t (u :: us)) : Admits env v (t :: ts) ∧ Admits env (after env.ops v (t :: ts)) (u :: us) ↔
      Admits env v ((t :: ts) ++ (u :: us)) ∧ CleanCut env (t :: ts) (u :: us) := by
  have _ := htrans t.type
  obtain ⟨hk, hop⟩ := hus u mem_cons_self
  have hau : adds u = false := (adds_congr hop).trans ha
  have htype : u.type = t.type := congrArg (fun k : Key => k.type.base) hk
  have hne : (members env.ops t.type (rdatas (u :: us))).Nonempty := members_nonempty (cons_ne_nil _ _)
  have happ : rdatas (t :: (ts ++ u :: us)) = rdatas (t :: ts) ++ rdatas (u :: us) := by simp
  have hbase : (tupleKey t).type.base = t.type := rfl
  rw [after_dels v ha hts, cons_append]
  simp only [Admits, CleanCut, ha, hau, hk, htype, Bool.false_eq_true, if_false, true_implies, happ, members_append,
    Set.union_subset_iff, View.del, update_self, hbase]
  cases hv : v (tupleKey t) with
  | none => simp
  | some p =>
    simp only [mem_def, Option.some.injEq, exists_eq_left', bind_some]
    by_cases hempty : p.2 \ members env.ops t.type (rdatas (t :: ts)) = ∅
    · -- nothing is left behind the cut, so what is deleted there was deleted before
      rw [if_pos hempty]
      have hsub := Set.sdiff_eq_empty.1 hempty
      have hno : ¬(members env.ops t.type (rdatas (u :: us)) ⊆ p.2 ∧
          Disjoint (members env.ops t.type (rdatas (t :: ts))) (members env.ops t.type (rdatas (u :: us)))) := by
        rintro ⟨hu, hdisj⟩
        obtain ⟨x, hx⟩ := hne
        exact Set.disjoint_left.1 hdisj (hsub (hu hx)) hx
      simp only [reduceCtorEq, false_and, exists_false, and_false, false_iff]
      tauto
    rw [if_neg hempty]
    simp only [Option.some.injEq, exists_eq_left', Set.subset_sdiff]
    rw [disjoint_comm]
    constructor
    · rintro ⟨⟨h1, h2, h3⟩, h4, h5, h6, h7⟩
      exact ⟨⟨h1, h2, h3, h6⟩, h4, h5.symm.trans h2, h7⟩
    · rintro ⟨⟨h1, h2, h3, h6⟩, h4, h5, h7⟩
      exact ⟨⟨h1, h2, h3⟩, h4, h2.trans h5.symm, h6, h7⟩

theorem admits_cut (htrans : ∀ type, TransCmp (env.ops.compare type)) (v : View) (p w : Tuples)
    (hp : p.IsChain (together · ·)) (hw : w.IsChain (together · ·)) (h : joins together p w = true) :
    Admits env v p ∧ Admits env (after env.ops v p) w ↔ Admits env v (p ++ w) ∧ CleanCut env p w := by
  obtain ⟨t, ts, u, us, rfl, rfl, hts, hus⟩ := joined hp hw h
  cases ha : adds t with
  | true => exact admits_cut_adds v ha hts hus
  | false => exact admits_cut_dels htrans v ha hts hus

end cuts

/-! ### The runs of a diff -/

section runs

variable {σ : Type} {f : Zone → Tuples → Exec Zone} {P : Zone → Prop} {Q : DiffTuple → Prop}
  {state : Zone → σ} {admits : σ → Tuples → Prop} {next : σ → Tuples → σ}

/-- What one run does, all of them do. -/
theorem foldlM_iff (hstep : ∀ z t ts, P z → IsRun t ts → Q t →
      ((∃ y, f z (t :: ts) = .ok y) ↔ admits (state z) (t :: ts) ∧ Short (t :: ts)) ∧
        ∀ y, f z (t :: ts) = .ok y → P y ∧ state y = next (state z) (t :: ts)) :
    ∀ {gs : List Tuples} {z : Zone}, [] ∉ gs → (∀ g ∈ gs, g.IsChain (together · ·)) →
      (∀ g ∈ gs, ∀ t ∈ g, Q t) → P z →
      ((∃ y, gs.foldlM f z = .ok y) ↔ All admits next (state z) gs ∧ ∀ g ∈ gs, Short g) ∧
        ∀ y, gs.foldlM f z = .ok y → P y ∧ state y = gs.foldl next (state z)
  | [], z, _, _, _, hz => by
    refine ⟨by simp [All, pure, Except.pure], fun y hy => ?_⟩
    cases hy
    exact ⟨hz, rfl⟩
  | [] :: gs, z, hn, _, _, _ => absurd mem_cons_self hn
  | (t :: ts) :: gs, z, hn, hc, hQ, hz => by
    rw [mem_cons, not_or] at hn
    obtain ⟨hg, hgs⟩ := forall_mem_cons.1 hc
    obtain ⟨hq, hqs⟩ := forall_mem_cons.1 hQ
    obtain ⟨hiff, hdone⟩ := hstep z t ts hz (run_of_isChain hg) (hq t mem_cons_self)
    rw [foldlM_cons, forall_mem_cons, All]
    cases hf : f z (t :: ts) with
    | error e =>
      rw [hf] at hiff
      have hno : ¬(admits (state z) (t :: ts) ∧ Short (t :: ts)) := fun h => by
        obtain ⟨y, hy⟩ := hiff.2 h
        cases hy
      refine ⟨⟨?_, fun h => absurd ⟨h.1.1, h.2.1⟩ hno⟩, ?_⟩
      · rintro ⟨y, hy⟩
        cases hy
      · intro y hy
        cases hy
    | ok x =>
      obtain ⟨hx, hstate⟩ := hdone x hf
      obtain ⟨hiff', hdone'⟩ := foldlM_iff hstep hn.2 hgs hqs hx
      have hyes := hiff.1 ⟨x, hf⟩
      rw [hstate] at hiff' hdone'
      refine ⟨?_, hdone'⟩
      rw [ok_then, hiff']
      tauto

end runs

/-! ### `dns_diff_load` -/

section loads

open Xfrin

/-- `loading_addrdataset` has nothing against the owner. -/
def Loadable (env : Xfrin.Env) (t : DiffTuple) : Prop :=
  ¬(t.type = soa ∧ t.name.equal env.origin = false) ∧ ¬(iswildcard t.name ∧ t.type = ns) ∧
    ¬(iswildcard t.name ∧ t.type = nsec3)

/-- The database that is being loaded accepts the tuples of one run, but for their number. -/
def Accepts (env : Xfrin.Env) (c : Contents) : Tuples → Prop
  | [] => True
  | t :: ts => Loadable env t ∧ Takes env.ops c (tupleKey t) (rdatas (t :: ts))

/-- The contents with those of a run of additions. -/
def more (ops : RdataOps) (c : Contents) : Tuples → Contents
  | [] => c
  | t :: ts => c.add ops (tupleKey t) (rdatas (t :: ts))

/-- The view with a run of additions; the rdataset gets the TTL of the first one. -/
def loaded (ops : RdataOps) (v : View) : Tuples → View
  | [] => v
  | t :: ts => v.load ops (tupleKey t) t.ttl (rdatas (t :: ts))

/-- The TTL that the first tuple of a run gives a rdataset. -/
def headTtl (k : Key) : Tuples → Option ℕ
  | [] => none
  | t :: _ => if tupleKey t = k then some t.ttl else none

def lastTtl (gs : List Tuples) (k : Key) : Option ℕ := (gs.filterMap (headTtl k)).getLast?

variable {env : Xfrin.Env} {z : Zone}

theorem rdata_loaded (v : View) (g : Tuples) : (loaded env.ops v g).rdata = more env.ops v.rdata g := by
  cases g with
  | nil => rfl
  | cons t ts => exact View.rdata_load v _ _ _

theorem rdata_foldl_loaded (v : View) (gs : List Tuples) :
    (gs.foldl (loaded env.ops) v).rdata = gs.foldl (more env.ops) v.rdata := by
  induction gs generalizing v with
  | nil => rfl
  | cons g gs ih => rw [foldl_cons, foldl_cons, ih, rdata_loaded]

theorem ttl_foldl_loaded (v : View) (gs : List Tuples) (k : Key) :
    ((gs.foldl (loaded env.ops) v) k).map Prod.fst = (lastTtl gs k).or ((v k).map Prod.fst) := by
  induction gs generalizing v with
  | nil => rfl
  | cons g gs ih =>
    rw [foldl_cons, ih]
    unfold lastTtl
    rw [filterMap_cons]
    have hone : ((loaded env.ops v g) k).map Prod.fst = (headTtl k g).or ((v k).map Prod.fst) := by
      cases g with
      | nil => rfl
      | cons t ts =>
        rw [loaded, headTtl, View.load]
        by_cases hk : tupleKey t = k
        · rw [if_pos hk, hk, update_self]
          rfl
        · rw [if_neg hk, update_of_ne (Ne.symm hk)]
          rfl
    rw [hone]
    cases headTtl k g with
    | none => rfl
    | some ttl =>
      rw [getLast?_cons]
      cases (gs.filterMap (headTtl k)).getLast? <;> rfl

theorem loaded_eq_iff {v : View} {gs gs' : List Tuples}
    (h : gs.foldl (more env.ops) v.rdata = gs'.foldl (more env.ops) v.rdata)
    (hsome : ∀ k, (lastTtl gs k).isSome = (lastTtl gs' k).isSome) :
    gs.foldl (loaded env.ops) v = gs'.foldl (loaded env.ops) v ↔ ∀ k, lastTtl gs k = lastTtl gs' k := by
  have hor : ∀ {a b c : Option ℕ}, a.isSome = b.isSome → (a.or c = b.or c ↔ a = b) := by
    rintro (_ | a) (_ | b) c hab
    · simp
    · cases hab
    · cases hab
    · simp
  constructor
  · intro heq k
    have hk := congrArg (fun v : View => (v k).map Prod.fst) heq
    simp only [ttl_foldl_loaded] at hk
    exact (hor (hsome k)).1 hk
  · intro httl
    funext k
    have hfst : ((gs.foldl (loaded env.ops) v) k).map Prod.fst = ((gs'.foldl (loaded env.ops) v) k).map Prod.fst := by
      rw [ttl_foldl_loaded, ttl_foldl_loaded, httl]
    have hsnd : (gs.foldl (loaded env.ops) v).rdata k = (gs'.foldl (loaded env.ops) v).rdata k := by
      rw [rdata_foldl_loaded, rdata_foldl_loaded, h]
    unfold View.rdata at hsnd
    cases ha : (gs.foldl (loaded env.ops) v) k with
    | none => cases hb : (gs'.foldl (loaded env.ops) v) k with
      | none => rfl
      | some b => simp [ha, hb] at hfst
    | some a => cases hb : (gs'.foldl (loaded env.ops) v) k with
      | none => simp [ha, hb] at hfst
      | some b =>
        rw [ha, hb] at hfst hsnd
        exact congrArg some (Prod.ext (Option.some.inj hfst) (Option.some.inj hsnd))

theorem isSome_lastTtl {gs : List Tuples} (hc : ∀ g ∈ gs, g.IsChain (together · ·)) (k : Key) :
    (lastTtl gs k).isSome = decide (∃ u ∈ gs.flatten, tupleKey u = k) := by
  rw [Bool.eq_iff_iff, decide_eq_true_iff, lastTtl, getLast?_isSome]
  have hne : gs.filterMap (headTtl k) ≠ [] ↔ ∃ x, x ∈ gs.filterMap (headTtl k) :=
    ⟨exists_mem_of_ne_nil _, fun ⟨x, hx⟩ => ne_nil_of_mem hx⟩
  rw [hne]
  simp only [mem_filterMap, mem_flatten]
  constructor
  · rintro ⟨x, g, hg, hx⟩
    cases g with
    | nil => cases hx
    | cons t ts =>
      rw [headTtl] at hx
      split at hx
      next hk => exact ⟨t, ⟨_, hg, mem_cons_self⟩, hk⟩
      · cases hx
  · rintro ⟨u, ⟨g, hg, hu⟩, hk⟩
    cases g with
    | nil => cases hu
    | cons t ts =>
      refine ⟨t.ttl, t :: ts, hg, ?_⟩
      rw [headTtl, if_pos]
      obtain rfl | hu := mem_cons.1 hu
      · exact hk
      · exact (run_of_isChain (hc _ hg) u hu).1.symm.trans hk

theorem iswildcard_lower (n : Name) : iswildcard n.lower = iswildcard n := by
  have hstar : ∀ c, maptolower c = 42 ↔ c = 42 := by
    intro c
    unfold maptolower
    split
    next hc =>
      simp only [UInt8.le_iff_toNat_le, ← UInt8.toNat_inj, UInt8.toNat_add, UInt8.reduceToNat] at hc ⊢
      omega
    · exact Iff.rfl
  obtain ⟨labels⟩ := n
  unfold iswildcard Name.lower
  cases labels with
  | nil => rfl
  | cons l ls =>
    rw [Bool.eq_iff_iff]
    simp only [map_cons, head?_cons, beq_iff_eq, Option.some.injEq]
    unfold Label.lower
    rw [map_eq_cons_iff]
    simp [hstar]

theorem loadable_congr {t u : DiffTuple} (h : tupleKey u = tupleKey t) : Loadable env u ↔ Loadable env t := by
  have htype : u.type = t.type := congrArg (fun k : Key => k.type.base) h
  have hname : u.name.lower = t.name.lower := congrArg Key.name h
  have hequal : u.name.equal env.origin = t.name.equal env.origin := by
    rw [Bool.eq_iff_iff, Name.equal_iff, Name.equal_iff, hname]
  have hwild : iswildcard u.name = iswildcard t.name := by rw [← iswildcard_lower, hname, iswildcard_lower]
  rw [Loadable, Loadable, htype, hequal, hwild]

theorem more_more {c : Contents} {p w : Tuples} (hp : p.IsChain (together · ·))
    (hw : w.IsChain (together · ·)) (h : joins together p w = true) :
    more env.ops (more env.ops c p) w = more env.ops c (p ++ w) := by
  obtain ⟨t, ts, u, us, rfl, rfl, -, hus⟩ := joined hp hw h
  rw [more, more, (hus u mem_cons_self).1, Contents.add_add, cons_append, more]
  simp

theorem accepts_cut (c : Contents) (p w : Tuples) (hp : p.IsChain (together · ·))
    (hw : w.IsChain (together · ·)) (h : joins together p w = true) :
    Accepts env c p ∧ Accepts env (more env.ops c p) w ↔ Accepts env c (p ++ w) ∧ True := by
  obtain ⟨t, ts, u, us, rfl, rfl, -, hus⟩ := joined hp hw h
  have hk := (hus u mem_cons_self).1
  have happ : rdatas (t :: (ts ++ u :: us)) = rdatas (t :: ts) ++ rdatas (u :: us) := by simp
  rw [Accepts, Accepts, more, cons_append, Accepts, hk, loadable_congr hk, happ, ← takes_append]
  tauto

theorem loadGroup_iff (htrans : ∀ type, TransCmp (env.ops.compare type)) (hz : Sound env.ops z) {t : DiffTuple}
    {ts : Tuples} (hop : t.op = .add) :
    ((∃ y, loadGroup env z (t :: ts) = .ok y) ↔ Accepts env (view env.ops z).rdata (t :: ts) ∧ Short (t :: ts)) ∧
      ∀ y, loadGroup env z (t :: ts) = .ok y → Sound env.ops y ∧
        view env.ops y = loaded env.ops (view env.ops z) (t :: ts) := by
  have _ := htrans t.type
  have _ := htrans (tupleKey t).type.base
  have hne : rdatas (t :: ts) ≠ [] := cons_ne_nil _ _
  have hlength : (rdatas (t :: ts)).length = (t :: ts).length := length_map _
  rw [Short, ← hlength]
  unfold loadGroup Accepts Loadable
  simp only [hop, beq_self_eq_true, require, if_true, ok_then]
  by_cases hsoa : t.type = soa ∧ t.name.equal env.origin = false
  · simp [hsoa, stop]
  rw [if_neg hsoa]
  by_cases hns : iswildcard t.name = true ∧ t.type = ns
  · simp [hns, stop]
  rw [if_neg hns]
  by_cases hnsec3 : iswildcard t.name = true ∧ t.type = nsec3
  · simp [hnsec3, stop]
  rw [if_neg hnsec3]
  simp only [hsoa, hns, hnsec3, not_false_eq_true, true_and]
  cases hslab : fromrdataset env.toEnv t.type (rdatas (t :: ts)) with
  | error e =>
    have hno : ¬(Takes env.ops (view env.ops z).rdata (tupleKey t) (rdatas (t :: ts)) ∧ (rdatas (t :: ts)).length ≤ 0xffff) := by
      rintro ⟨htakes, hshort⟩
      have hsingle : env.ops.issingleton t.type = true → Fits env.ops t.type 1 (members env.ops t.type (rdatas (t :: ts))) :=
        fun hs => (htakes.single hs).mono Set.subset_union_right
      obtain ⟨slab, h⟩ := (fromrdataset_iff hne).2 ⟨hshort, hsingle⟩
      rw [hslab] at h
      cases h
    rw [iff_false_right hno]
    refine ⟨?_, ?_⟩
    · rintro ⟨y, hy⟩
      cases hy
    · intro y hy
      cases hy
  | ok slab =>
    obtain ⟨hord, hmem, hlen, hone⟩ := fromrdataset_sound hslab
    obtain ⟨hfine, hdone⟩ :=
      @addrdataset_fine _ z (tupleKey t) t.ttl slab _ hz hord hlen hone ⟨true, false, false⟩
    rw [takes_congr (k := tupleKey t) hmem] at hfine
    have hview : (view env.ops z).load env.ops (tupleKey t) t.ttl slab.1 = loaded env.ops (view env.ops z) (t :: ts) := by
      have hmem : members env.ops (tupleKey t).type.base slab.1 = members env.ops (tupleKey t).type.base (rdatas (t :: ts)) := hmem
      rw [loaded, View.load, View.load, hmem]
    have hshort := ((fromrdataset_iff hne).1 ⟨slab, hslab⟩).1
    rw [ok_then]
    by_cases hf : Fine (addrdataset env.toEnv z (tupleKey t) t.ttl slab ⟨true, false, false⟩).2
    · obtain ⟨hsound, hv⟩ := hdone hf
      simp only [hf, if_true]
      refine ⟨⟨fun _ => ⟨(hfine.1 hf).2, hshort⟩, fun _ => ⟨_, rfl⟩⟩, fun y hy => ?_⟩
      cases hy
      exact ⟨hsound, hv.trans hview⟩
    simp only [hf, if_false, stop]
    have hno : ¬Takes env.ops (view env.ops z).rdata (tupleKey t) (rdatas (t :: ts)) :=
      fun h => hf (hfine.2 ⟨(by intro he; cases he), h⟩)
    refine ⟨⟨?_, fun h => absurd h.1 hno⟩, fun y hy => (by cases hy)⟩
    rintro ⟨y, hy⟩
    cases hy

end loads

/-! ### Cutting a diff -/

section batches

open Xfrin

/-- A diff in pieces does what it does as a whole. -/
def Invisible (ops : RdataOps) (apply : Zone → Tuples → Exec Zone) (z : Zone) (ds : List Tuples) :
    Prop :=
  ((∃ y, ds.foldlM apply z = .ok y) ↔ ∃ y, apply z ds.flatten = .ok y) ∧
    ∀ x y, ds.foldlM apply z = .ok x → apply z ds.flatten = .ok y → view ops x = view ops y

variable {env : Xfrin.Env} {z : Zone}

theorem isChain_pieces {ds : List Tuples} : ∀ p ∈ pieces together ds, p.IsChain (together · ·) := by
  intro p hp
  obtain ⟨d, -, h⟩ := mem_flatMap.1 hp
  exact isChain_of_mem_splitBy h

theorem nil_notMem_pieces {ds : List Tuples} : [] ∉ pieces together ds := by
  rw [pieces, mem_flatMap]
  rintro ⟨d, -, h⟩
  exact nil_notMem_splitBy together d h

theorem short_of_regroup {ps : List Tuples} (h : ∀ w ∈ regroup together ps, Short w) : ∀ p ∈ ps, Short p := by
  induction ps with
  | nil => simp
  | cons p ps ih =>
    rw [regroup] at h
    split at h
    next hnil =>
      rw [hnil] at ih
      exact forall_mem_cons.2 ⟨h p mem_cons_self, ih (by simp)⟩
    next w ws hcons =>
      rw [hcons] at ih
      split at h
      · obtain ⟨hpw, hws⟩ := forall_mem_cons.1 h
        rw [Short, List.length_append] at hpw
        refine forall_mem_cons.2 ⟨by rw [Short]; omega, ih (forall_mem_cons.2 ⟨by rw [Short]; omega, hws⟩)⟩
      · obtain ⟨hp, hws⟩ := forall_mem_cons.1 h
        exact forall_mem_cons.2 ⟨hp, ih hws⟩

variable (htrans : ∀ type, TransCmp (env.ops.compare type)) (hz : Sound env.ops z)
include htrans hz

theorem diffApply_invisible (ds : List Tuples) : Invisible env.ops (diffApply env.toEnv) z ds ↔
      (All (Admits env.toEnv) (after env.ops) (view env.ops z) (ds.flatten.splitBy together) →
        ((∀ w ∈ ds.flatten.splitBy together, Short w) ↔
          Joints together (CleanCut env.toEnv) (pieces together ds) ∧ ∀ p ∈ pieces together ds, Short p)) := by
  have hstep := fun z t ts hz hts (_ : True) => @applyGroup_iff _ z htrans hz t ts hts
  obtain ⟨hpieces, hview⟩ := foldlM_iff hstep (@nil_notMem_pieces ds) isChain_pieces (fun _ _ _ _ => trivial) hz
  obtain ⟨hwhole, hview'⟩ := foldlM_iff hstep (nil_notMem_splitBy together ds.flatten)
    (fun _ => isChain_of_mem_splitBy) (fun _ _ _ _ => trivial) hz
  obtain ⟨hall, hfold⟩ := all_regroup (fun s p w _ _ _ => after_after s p w) (admits_cut htrans) (view env.ops z)
    (@isChain_pieces ds)
  rw [regroup_pieces] at hall hfold
  unfold Invisible diffApply
  rw [foldlM_pieces, hpieces, hall, hwhole]
  constructor
  · rintro ⟨h, -⟩ hadmits
    tauto
  · intro h
    refine ⟨by tauto, fun x y hx hy => ?_⟩
    rw [(hview x hx).2, hfold, (hview' y hy).2]

theorem diffLoad_invisible {ds : List Tuples} (hadd : ∀ t ∈ ds.flatten, t.op = .add) :
    Invisible env.ops (diffLoad env) z ds ↔
      (All (Accepts env) (more env.ops) (view env.ops z).rdata (ds.flatten.splitBy together) →
        (∀ p ∈ pieces together ds, Short p) → (∀ w ∈ ds.flatten.splitBy together, Short w) ∧
          ∀ k, lastTtl (ds.flatten.splitBy together) k = lastTtl (pieces together ds) k) := by
  have hstep := fun z t ts hz (_ : IsRun t ts) hop => @loadGroup_iff _ z htrans hz t ts hop
  have hflat : (pieces together ds).flatten = ds.flatten := by
    rw [← flatten_regroup, regroup_pieces, flatten_splitBy]
  have hpadd : ∀ p ∈ pieces together ds, ∀ t ∈ p, t.op = .add := by
    intro p hp t ht
    exact hadd t (hflat ▸ mem_flatten_of_mem hp ht)
  have hwadd : ∀ w ∈ ds.flatten.splitBy together, ∀ t ∈ w, t.op = .add := by
    intro w hw t ht
    apply hadd t
    rw [← flatten_splitBy together ds.flatten]
    exact mem_flatten_of_mem hw ht
  have hruns := @foldlM_iff View (loadGroup env) (Sound env.ops) (fun t => t.op = .add) (view env.ops)
    (fun v => Accepts env v.rdata) (loaded env.ops) hstep
  obtain ⟨hpieces, hview⟩ := hruns (@nil_notMem_pieces ds) isChain_pieces hpadd hz
  obtain ⟨hwhole, hview'⟩ := hruns (nil_notMem_splitBy together ds.flatten)
    (fun _ => isChain_of_mem_splitBy) hwadd hz
  obtain ⟨hall, hfold⟩ := all_regroup (fun c p w hp hw h => more_more (c := c) hp hw h) (@accepts_cut env)
    (view env.ops z).rdata (@isChain_pieces ds)
  rw [regroup_pieces] at hall hfold
  have hjoints : Joints together (fun _ _ => True) (pieces together ds) := by
    generalize pieces together ds = ps
    induction ps with
    | nil => trivial
    | cons p ps ih => exact ⟨ih, fun _ _ _ => trivial⟩
  rw [and_iff_left hjoints] at hall
  have hsome : ∀ k, (lastTtl (ds.flatten.splitBy together) k).isSome = (lastTtl (pieces together ds) k).isSome := by
    intro k
    rw [isSome_lastTtl (fun _ => isChain_of_mem_splitBy), isSome_lastTtl isChain_pieces, hflat, flatten_splitBy]
  have httl := loaded_eq_iff hfold.symm hsome
  rw [all_map rdata_loaded] at hpieces hwhole
  have hshort : (∀ w ∈ ds.flatten.splitBy together, Short w) → ∀ p ∈ pieces together ds, Short p := by
    rw [← regroup_pieces]
    exact short_of_regroup
  unfold Invisible diffLoad
  rw [foldlM_pieces, hpieces, hall, hwhole]
  constructor
  · rintro ⟨h, heq⟩ haccepts hps
    have hws := (h.1 ⟨haccepts, hps⟩).2
    refine ⟨hws, httl.1 ?_⟩
    obtain ⟨x, hx⟩ := hpieces.2 ⟨hall.2 haccepts, hps⟩
    obtain ⟨y, hy⟩ := hwhole.2 ⟨haccepts, hws⟩
    rw [← (hview x hx).2, ← (hview' y hy).2]
    exact (heq x y hx hy).symm
  · intro h
    refine ⟨⟨fun hp => ⟨hp.1, (h hp.1 hp.2).1⟩, fun hw => ⟨hw.1, hshort hw.2⟩⟩, fun x y hx hy => ?_⟩
    obtain ⟨hp, hps⟩ := hpieces.1 ⟨x, hx⟩
    rw [(hview x hx).2, (hview' y hy).2]
    exact (httl.2 (h (hall.1 hp) hps).2).symm

/-- Cutting a diff is not noticed if and only if no cut changes what the run it cuts is taken for. -/
theorem batching_invisible (ds : List Tuples) : (Invisible env.ops (diffApply env.toEnv) z ds ↔
      (All (Admits env.toEnv) (after env.ops) (view env.ops z) (ds.flatten.splitBy together) →
        ((∀ w ∈ ds.flatten.splitBy together, Short w) ↔
          Joints together (CleanCut env.toEnv) (pieces together ds) ∧ ∀ p ∈ pieces together ds, Short p))) ∧
    ((∀ t ∈ ds.flatten, t.op = .add) → (Invisible env.ops (diffLoad env) z ds ↔
      (All (Accepts env) (more env.ops) (view env.ops z).rdata (ds.flatten.splitBy together) →
        (∀ p ∈ pieces together ds, Short p) → (∀ w ∈ ds.flatten.splitBy together, Short w) ∧
          ∀ k, lastTtl (ds.flatten.splitBy together) k = lastTtl (pieces together ds) k))) :=
  ⟨diffApply_invisible htrans hz ds, diffLoad_invisible htrans hz⟩

end batches

/-! ### An example -/

/-- The root zone, with rdata in the order of their bytes. -/
def byteEnv : Xfrin.Env where
  ops := ⟨fun _ => compare, fun _ => false⟩
  qsort := Qsort.mergeSort
  rdclass := 1
  origin := ⟨[[]]⟩
  forced := false
  ismeta _ := false

theorem byteEnv_trans (type : UInt16) : TransCmp (byteEnv.ops.compare type) :=
  inferInstanceAs (TransCmp (compare : Rdata → Rdata → Ordering))

def rootText (ttl : ℕ) (rdata : Rdata) : DiffTuple := ⟨.add, ⟨[[]]⟩, ttl, 1, 16, rdata⟩

/-- Two records with different TTLs, in one diff and in two. -/
theorem cut_ttl : ¬Invisible byteEnv.ops (diffApply byteEnv.toEnv) [] [[rootText 1 [1]], [rootText 2 [2]]] := by
  rw [diffApply_invisible byteEnv_trans sound_nil]
  have hwhole : ([[rootText 1 [1]], [rootText 2 [2]]].flatten).splitBy together = [[rootText 1 [1], rootText 2 [2]]] := by
    decide
  have hpieces : pieces together [[rootText 1 [1]], [rootText 2 [2]]] = [[rootText 1 [1]], [rootText 2 [2]]] := by decide
  have _ := byteEnv_trans 16
  have hord : InOrder byteEnv.ops 16 [[1], [2]] := by
    rw [InOrder]
    simp only [pairwise_cons]
    decide
  have htakes : Takes byteEnv.ops (view byteEnv.ops []).rdata ⟨⟨[[]]⟩, ⟨16, 0⟩⟩ [[1], [2]] := by
    refine ⟨?_, fun h => (by cases h), fun h => ?_⟩
    · rw [view_at_none rfl, Set.empty_union]
      exact hord.fits_iff.2 (by decide)
    · have hcname := isSome_add.1 h.2.1
      simp [view, Zone.find, View.rdata, RdType.cname] at hcname
  rw [hwhole, hpieces]
  intro h
  have hcut := (h ⟨⟨rfl, ?_⟩, trivial⟩).1 ?_
  · have hclean := hcut.1.2 [rootText 2 [2]] rfl (by decide)
    exact absurd hclean.2.1 (by decide)
  · exact ⟨fun p hp => (by cases hp), htakes⟩
  · intro w hw
    obtain rfl := mem_singleton.1 hw
    simp [Short]

/-- Two records with one TTL, in two diffs. -/
theorem batching_invisible_texts :
    Invisible byteEnv.ops (diffApply byteEnv.toEnv) [] [[rootText 1 [1]], [rootText 1 [2]]] := by
  have hpieces : pieces together [[rootText 1 [1]], [rootText 1 [2]]] = [[rootText 1 [1]], [rootText 1 [2]]] := by decide
  rw [(batching_invisible byteEnv_trans sound_nil [[rootText 1 [1]], [rootText 1 [2]]]).1]
  refine fun _ => ⟨fun _ => ⟨?_, ?_⟩, fun _ => ?_⟩
  · rw [hpieces]
    refine ⟨⟨trivial, fun w hw => by cases hw⟩, fun w hw hj => ?_⟩
    cases hw
    exact ⟨rfl, rfl, fun ha => by cases ha⟩
  · rw [hpieces]
    simp [Short]
  · have hwhole : ([[rootText 1 [1]], [rootText 1 [2]]].flatten).splitBy together = [[rootText 1 [1], rootText 1 [2]]] := by
      decide
    rw [hwhole]
    simp [Short]

end Bind9.ZoneDb
