import Bind9.DbDiffExact

/-! # Minimal diffs

`dns_diff_appendminimal` cancels a tuple against an earlier one with the same owner, rdata and TTL.  A zone content is a list of
records of which no two are the same up to case, TTL included; as long as no record is added that is there and none is deleted
that is not, the diff holds one tuple for each record in which the content has changed, and its tuples may be applied in any
order. -/

namespace Bind9.Diff

open List
open Bool

open DbDiff

variable {ops : RdataOps} (ops) in
/-- The tuples of a list appended one by one; the error once reported stays. -/
def appendAll (ts : Tuples) (out : Tuples × Bool) : Tuples × Bool :=
  ts.foldl (fun out t => ((appendminimal ops out.1 t).1, out.2 || (appendminimal ops out.1 t).2)) out

/-! ### Zone contents -/

variable (ops) in
/-- The effect of an addition or a deletion on a zone content; owner, rdata and TTL count. -/
def change (z : List Rr) (t : DiffTuple) : List Rr :=
  match t.op with
  | .del | .delresign => z.filter (fun r => !((rrOf t).same ops r && t.ttl == r.ttl))
  | .add | .addresign => rrOf t :: z

variable (ops) in
/-- No record is added that is there, and none is deleted that is not. -/
def Legal : List Rr → Tuples → Prop
  | _, [] => True
  | z, t :: ts => (t.op = .add ∧ has ops z (rrOf t) = false ∨ t.op = .del ∧ has ops z (rrOf t) = true) ∧
      Legal (change ops z t) ts

variable (ops) in
/-- No two records are the same. -/
def Distinct (z : List Rr) : Prop := z.Pairwise (fun r s => ¬r.equiv ops s)

theorem equiv_refl (hl : Lawful ops) (r : Rr) : r.equiv ops r := ⟨hl.same_refl r, rfl⟩

theorem Rr.equiv.symm {r s : Rr} (h : r.equiv ops s) (hl : Lawful ops) : s.equiv ops r := ⟨hl.same_symm h.1, h.2.symm⟩

theorem Rr.equiv.trans {r s u : Rr} (h : r.equiv ops s) (h' : s.equiv ops u) (hl : Lawful ops) : r.equiv ops u :=
  ⟨hl.same_trans h.1 h'.1, h.2.trans h'.2⟩

instance (r s : Rr) : Decidable (r.equiv ops s) := inferInstanceAs (Decidable (_ ∧ _))

variable {z now : List Rr}

theorem has_iff {r : Rr} : has ops z r = true ↔ ∃ s ∈ z, r.equiv ops s := has_eq_true

theorem has_congr (hl : Lawful ops) {r s : Rr} (h : r.equiv ops s) : has ops z r = has ops z s := by
  rw [Bool.eq_iff_iff, has_iff, has_iff]
  constructor
  · rintro ⟨u, hu, he⟩
    exact ⟨u, hu, (h.symm hl).trans he hl⟩
  · rintro ⟨u, hu, he⟩
    exact ⟨u, hu, h.trans he hl⟩

/-- What a tuple leaves of a record: it sets the one that it names and no other. -/
theorem has_change (hl : Lawful ops) (z : List Rr) (t : DiffTuple) (r : Rr) :
    has ops (change ops z t) r = if (rrOf t).equiv ops r then t.op.aop == 0 else has ops z r := by
  obtain hop | hop := aop_cases t.op
  · have hchange : change ops z t = rrOf t :: z := by
      unfold change
      cases ht : t.op with
      | add | addresign => rfl
      | del | delresign => rw [ht] at hop; cases hop
    rw [hchange, hop]
    split
    · next he => exact has_iff.2 ⟨rrOf t, by simp, he.symm hl⟩
    next he =>
      rw [Bool.eq_iff_iff, has_iff, has_iff]
      constructor
      · rintro ⟨u, hu, hru⟩
        obtain rfl | hu := mem_cons.1 hu
        · exact absurd (hru.symm hl) he
        · exact ⟨u, hu, hru⟩
      · rintro ⟨u, hu, hru⟩
        exact ⟨u, mem_cons_of_mem _ hu, hru⟩
  have hchange : change ops z t = z.filter (fun r => !((rrOf t).same ops r && t.ttl == r.ttl)) := by
    unfold change
    cases ht : t.op with
    | add | addresign => rw [ht] at hop; cases hop
    | del | delresign => rfl
  have hmem : ∀ u, u ∈ change ops z t ↔ u ∈ z ∧ ¬(rrOf t).equiv ops u := by
    intro u
    rw [hchange, mem_filter]
    refine and_congr_right (fun _ => ?_)
    rw [not_eq_true', ← not_eq_true, and_eq_true, beq_iff_eq]
    rfl
  rw [hop, Bool.eq_iff_iff, has_iff]
  split
  · next he =>
      refine ⟨?_, fun h => by cases h⟩
      rintro ⟨u, hu, hru⟩
      exact absurd (he.trans hru hl) ((hmem u).1 hu).2
  next he =>
    rw [has_iff]
    constructor
    · rintro ⟨u, hu, hru⟩
      exact ⟨u, ((hmem u).1 hu).1, hru⟩
    · rintro ⟨u, hu, hru⟩
      exact ⟨u, (hmem u).2 ⟨hu, fun h => he (h.trans (hru.symm hl) hl)⟩, hru⟩

theorem Distinct.change {t : DiffTuple} (h : Distinct ops z) (hlegal : t.op.aop = 0 → has ops z (rrOf t) = false) :
    Distinct ops (change ops z t) := by
  obtain hop | hop := aop_cases t.op
  · have hno := hlegal hop
    have hcons : Distinct ops (rrOf t :: z) := by
      refine pairwise_cons.2 ⟨fun s hs he => ?_, h⟩
      rw [has_iff.2 ⟨s, hs, he⟩] at hno
      cases hno
    unfold Diff.change
    cases ht : t.op with
    | add | addresign => exact hcons
    | del | delresign => rw [ht] at hop; cases hop
  unfold Diff.change
  cases ht : t.op with
  | add | addresign => rw [ht] at hop; cases hop
  | del | delresign => exact h.filter _

/-! ### Tuples that name different records -/

variable (ops) in
/-- No two tuples name the same record. -/
def Apart (ts : Tuples) : Prop := ts.Pairwise (fun s t => ¬(rrOf s).equiv ops (rrOf t))

theorem Apart.perm (hl : Lawful ops) {ts us : Tuples} (h : Apart ops ts) (hp : ts.Perm us) : Apart ops us :=
  (hp.pairwise_iff (fun hne he => hne (he.symm hl))).1 h

/-- Tuples that name different records: the one that names `r` decides, wherever it stands. -/
theorem has_foldl_change (hl : Lawful ops) : ∀ (ts : Tuples) (z : List Rr) (r : Rr), Apart ops ts →
    (∀ t ∈ ts, (rrOf t).equiv ops r → has ops (ts.foldl (change ops) z) r = (t.op.aop == 0)) ∧
      ((∀ t ∈ ts, ¬(rrOf t).equiv ops r) → has ops (ts.foldl (change ops) z) r = has ops z r)
  | [], z, r, _ => ⟨by simp, fun _ => rfl⟩
  | t :: ts, z, r, h => by
    obtain ⟨hne, hts⟩ := pairwise_cons.1 h
    obtain ⟨ihmem, ihnot⟩ := has_foldl_change hl ts (change ops z t) r hts
    constructor
    · intro u hu he
      obtain rfl | hu := mem_cons.1 hu
      · rw [foldl_cons, ihnot (fun v hv hv' => hne v hv (he.trans (hv'.symm hl) hl)), has_change hl, if_pos he]
      · exact ihmem u hu he
    · intro hno
      rw [foldl_cons, ihnot (fun v hv => hno v (mem_cons_of_mem _ hv)), has_change hl,
        if_neg (hno t (by simp))]

/-! ### The diff holds the net change -/

theorem sameTuple_iff_equiv {u t : DiffTuple} : sameTuple ops u t = true ↔ (rrOf u).equiv ops (rrOf t) := by
  rw [sameTuple, and_eq_true, beq_iff_eq]
  rfl

variable (ops) in
/-- The diff has one tuple for each record in which the content `now` differs from `z`, and no other. -/
structure Net (z now : List Rr) (diff : Tuples) : Prop where
  apart : Apart ops diff
  sound : ∀ t ∈ diff, t.op = .add ∧ has ops z (rrOf t) = false ∧ has ops now (rrOf t) = true ∨
    t.op = .del ∧ has ops z (rrOf t) = true ∧ has ops now (rrOf t) = false
  complete : ∀ r, has ops z r ≠ has ops now r → ∃ t ∈ diff, (rrOf t).equiv ops r

theorem Net.nil (z : List Rr) : Net ops z z [] := ⟨.nil, by simp, fun _ h => absurd rfl h⟩

variable {diff : Tuples}

theorem Net.appendminimal (hl : Lawful ops) {t : DiffTuple} (h : Net ops z now diff)
    (hlegal : t.op = .add ∧ has ops now (rrOf t) = false ∨ t.op = .del ∧ has ops now (rrOf t) = true) :
    Net ops z (change ops now t) (appendminimal ops diff t).1 ∧ (appendminimal ops diff t).2 = false := by
  have hself : has ops (change ops now t) (rrOf t) = (t.op.aop == 0) := by
    rw [has_change hl, if_pos (equiv_refl hl _)]
  have hother : ∀ r, ¬(rrOf t).equiv ops r → has ops (change ops now t) r = has ops now r := by
    intro r hr
    rw [has_change hl, if_neg hr]
  unfold Diff.appendminimal
  obtain ⟨hnone, hno⟩ | ⟨ot, rest, hsome, he, hp⟩ := unlinkSame_spec t diff
  · -- the record has not changed so far
    have hno : ∀ u ∈ diff, ¬(rrOf u).equiv ops (rrOf t) := fun u hu he => Bool.eq_false_iff.1 (hno u hu) (sameTuple_iff_equiv.2 he)
    rw [hnone]
    have hz : has ops z (rrOf t) = has ops now (rrOf t) := by
      by_contra hne
      obtain ⟨u, hu, heq⟩ := h.complete _ hne
      exact hno u hu heq
    refine ⟨⟨?_, ?_, ?_⟩, rfl⟩
    · refine pairwise_append.2 ⟨h.apart, pairwise_singleton _ _, fun u hu v hv => ?_⟩
      rw [mem_singleton.1 hv]
      exact hno u hu
    · intro u hu
      obtain hu | hu := mem_append.1 hu
      · rw [hother _ (fun heq => hno u hu (heq.symm hl))]
        exact h.sound u hu
      rw [mem_singleton.1 hu, hself, hz]
      obtain ⟨hop, hnow⟩ | ⟨hop, hnow⟩ := hlegal
      · exact .inl ⟨hop, hnow, by rw [hop]; rfl⟩
      · exact .inr ⟨hop, hnow, by rw [hop]; rfl⟩
    · intro r hne
      by_cases heq : (rrOf t).equiv ops r
      · exact ⟨t, by simp, heq⟩
      rw [hother r heq] at hne
      obtain ⟨u, hu, hur⟩ := h.complete r hne
      exact ⟨u, mem_append_left _ hu, hur⟩
  -- the record has changed before and changes back
  rw [sameTuple_iff_equiv] at he
  rw [hsome]
  have hot : ot ∈ diff := hp.mem_iff.2 (by simp)
  have hrest : Apart ops (ot :: rest) := h.apart.perm hl hp
  obtain ⟨hfar, hrest'⟩ := pairwise_cons.1 hrest
  have hops : t.op ≠ ot.op ∧ has ops z (rrOf t) = (t.op.aop == 0) := by
    have hsound := h.sound ot hot
    rw [has_congr hl he, has_congr hl he] at hsound
    obtain ⟨hop, hnow⟩ | ⟨hop, hnow⟩ := hlegal
    · obtain ⟨-, -, hnow'⟩ | ⟨hop', hz, -⟩ := hsound
      · rw [hnow] at hnow'
        cases hnow'
      · exact ⟨by rw [hop, hop']; decide, by rw [hz, hop]; rfl⟩
    obtain ⟨hop', hz, -⟩ | ⟨-, -, hnow'⟩ := hsound
    · exact ⟨by rw [hop, hop']; decide, by rw [hz, hop]; rfl⟩
    · rw [hnow] at hnow'
      cases hnow'
  simp only
  rw [if_neg hops.1]
  refine ⟨⟨hrest', ?_, ?_⟩, rfl⟩
  · intro u hu
    rw [hother _ (fun heq => hfar u hu (he.trans heq hl))]
    exact h.sound u (hp.mem_iff.2 (mem_cons_of_mem _ hu))
  · intro r hne
    by_cases heq : (rrOf t).equiv ops r
    · rw [← has_congr hl heq, ← has_congr hl heq, hself] at hne
      exact absurd hops.2 hne
    rw [hother r heq] at hne
    obtain ⟨u, hu, hur⟩ := h.complete r hne
    obtain rfl | hu := mem_cons.1 (hp.mem_iff.1 hu)
    · exact absurd ((he.symm hl).trans hur hl) heq
    · exact ⟨u, hu, hur⟩

theorem Net.appendAll (hl : Lawful ops) : ∀ (ts : Tuples) (now : List Rr) (diff : Tuples),
    Net ops z now diff → Legal ops now ts →
    Net ops z (ts.foldl (change ops) now) (appendAll ops ts (diff, false)).1 ∧ (appendAll ops ts (diff, false)).2 = false
  | [], _, _, h, _ => ⟨h, rfl⟩
  | t :: ts, now, diff, h, hlegal => by
    obtain ⟨h', herr⟩ := h.appendminimal hl hlegal.1
    have hrun : Diff.appendAll ops (t :: ts) (diff, false) = Diff.appendAll ops ts ((Diff.appendminimal ops diff t).1, false) := by
      unfold Diff.appendAll
      rw [foldl_cons, herr]
      rfl
    rw [hrun]
    exact Net.appendAll hl ts (change ops now t) _ h' hlegal.2

theorem Net.apply (hl : Lawful ops) (h : Net ops z now diff) {ts : Tuples}
    (hp : ts.Perm diff) (r : Rr) : has ops (ts.foldl (change ops) z) r = has ops now r := by
  obtain ⟨hmem, hnot⟩ := has_foldl_change hl ts z r (h.apart.perm hl hp.symm)
  by_cases hex : ∃ t ∈ diff, (rrOf t).equiv ops r
  · obtain ⟨t, ht, he⟩ := hex
    rw [hmem t (hp.mem_iff.2 ht) he, ← has_congr hl he]
    obtain ⟨hop, -, hnow⟩ | ⟨hop, -, hnow⟩ := h.sound t ht
    · rw [hop, hnow]
      rfl
    · rw [hop, hnow]
      rfl
  rw [hnot (fun t ht he => hex ⟨t, hp.mem_iff.1 ht, he⟩)]
  by_contra hne
  exact hex (h.complete r hne)

/-- A content stays without duplicates while tuples that name different records are applied, each legal at the start. -/
theorem Net.distinct (hl : Lawful ops) (h : Net ops z now diff) (hz : Distinct ops z) :
    ∀ {ts : Tuples}, ts.Perm diff → Distinct ops (ts.foldl (change ops) z) := by
  intro ts hp
  have hapart := h.apart.perm hl hp.symm
  have hadd : ∀ t ∈ ts, t.op.aop = 0 → has ops z (rrOf t) = false := by
    intro t ht hop
    obtain ⟨-, hno, -⟩ | ⟨hdel, -, -⟩ := h.sound t (hp.mem_iff.1 ht)
    · exact hno
    · rw [hdel] at hop
      cases hop
  clear h hp
  induction ts generalizing z with
  | nil => exact hz
  | cons t ts ih =>
    obtain ⟨hne, hts⟩ := pairwise_cons.1 hapart
    refine ih (hz.change (hadd t (by simp))) hts (fun u hu hop => ?_)
    rw [has_change hl, if_neg (hne u hu)]
    exact hadd u (mem_cons_of_mem _ hu) hop

theorem Legal.distinct (hz : Distinct ops z) : ∀ {ts : Tuples}, Legal ops z ts →
    Distinct ops (ts.foldl (change ops) z) := by
  intro ts h
  induction ts generalizing z with
  | nil => exact hz
  | cons t ts ih =>
    refine ih (hz.change (fun hop => ?_)) h.2
    obtain ⟨-, hno⟩ | ⟨hdel, -⟩ := h.1
    · exact hno
    · rw [hdel] at hop
      cases hop

/-- **Minimal diffs keep the net effect.**  From an empty diff, the tuples of a sequence that adds no record that is there and
deletes none that is not are appended without an `UNEXPECTED_ERROR`; the diff names no record twice; and its deletions followed
by its additions, or the diff as `ixfr_order` sorts it, give the zone content that the sequence gives. -/
theorem appendminimal_net (hl : Lawful ops) (q : Qsort) {z : List Rr} (hz : Distinct ops z) {ts : Tuples}
    (hlegal : Legal ops z ts) : ∃ diff, appendAll ops ts ([], false) = (diff, false) ∧ Apart ops diff ∧
      Distinct ops (ts.foldl (change ops) z) ∧
      ∀ us, us = diff.filter (fun t => t.op == .del) ++ diff.filter (fun t => t.op == .add) ∨ us = q.sort ixfrOrder diff →
        Distinct ops (us.foldl (change ops) z) ∧
          ∀ r, has ops (us.foldl (change ops) z) r = has ops (ts.foldl (change ops) z) r := by
  obtain ⟨hnet, herr⟩ := (Net.nil z).appendAll hl ts z [] hlegal
  refine ⟨_, Prod.ext rfl herr, hnet.apart, hlegal.distinct hz, fun us hus => ?_⟩
  have hp : us.Perm (appendAll ops ts ([], false)).1 := by
    rcases hus with rfl | rfl
    · have hadd : ∀ t ∈ (appendAll ops ts ([], false)).1, (t.op == .add) = !(t.op == .del) := by
        intro t ht
        obtain ⟨hop, -⟩ | ⟨hop, -⟩ := hnet.sound t ht
        · rw [hop]; rfl
        · rw [hop]; rfl
      rw [filter_congr hadd]
      exact filter_append_perm _ _
    · exact q.perm _ _
  exact ⟨hnet.distinct hl hz hp, hnet.apply hl hp⟩

/-- A record that is deleted and added again, and one whose TTL changes. -/
theorem appendminimal_net_ttl : ∃ diff, appendAll byteOps
      [⟨.del, ⟨[[97], []]⟩, 300, 1, 16, [1, 120]⟩, ⟨.add, ⟨[[65], []]⟩, 300, 1, 16, [1, 120]⟩,
        ⟨.del, ⟨[[97], []]⟩, 300, 1, 16, [1, 120]⟩, ⟨.add, ⟨[[97], []]⟩, 600, 1, 16, [1, 120]⟩] ([], false) = (diff, false) ∧
      Apart byteOps diff := by
  have hlegal : Legal byteOps [⟨⟨[[97], []]⟩, 300, 1, 16, [1, 120]⟩]
      [⟨.del, ⟨[[97], []]⟩, 300, 1, 16, [1, 120]⟩, ⟨.add, ⟨[[65], []]⟩, 300, 1, 16, [1, 120]⟩,
        ⟨.del, ⟨[[97], []]⟩, 300, 1, 16, [1, 120]⟩, ⟨.add, ⟨[[97], []]⟩, 600, 1, 16, [1, 120]⟩] := by
    refine ⟨Or.inr ⟨rfl, by decide⟩, Or.inl ⟨rfl, by decide⟩, Or.inr ⟨rfl, by decide⟩, Or.inl ⟨rfl, by decide⟩, trivial⟩
  obtain ⟨diff, hdiff, hapart, -⟩ := appendminimal_net lawful_byteOps .mergeSort (pairwise_singleton _ _) hlegal
  exact ⟨diff, hdiff, hapart⟩

end Bind9.Diff
