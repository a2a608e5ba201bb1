import Bind9.RadixTable

/-! # The first match of a radix tree

What `isc_radix_insert` and `isc_radix_search` do together, without the data that an IP table keeps in the nodes: a search for an
address finds the node of the prefix that was inserted first among those that contain the address.  The tree is compared with the
list of the prefixes in the order of their insertion. -/

namespace Bind9.Radix

open Patricia
open List

/-- The tree is a Patricia tree: bits grow downwards, a prefix agrees with all that is below it, and nodes without a prefix have two
children. -/
def IsPatricia (t : BitTree RadixNode) : Prop := (∀ c, Fits RadixNode.bit key c 0 t) ∧ Forks t

/-- The prefix is of the host's family, or of any, and contains the host. -/
def Contains (h p : Prefix) : Prop :=
  p.family.covers h.family.is6 = true ∧ Agree p.bitlen (toBits p.add) (toBits h.add)

/-- A prefix as a caller of `isc_radix_insert` has it. -/
structure Given (p : Prefix) : Prop where
  legal : p.Legal
  length : p.add.length = 16

/-- The search finds the node of the first prefix of the log that contains the host, and no node of such a prefix has a smaller
ordinal. -/
def FindsFirst (radix : RadixTree) (log : List Prefix) (h : Prefix) : Prop :=
  (search radix h = none ∧ ∀ p ∈ log, ¬ Contains h p) ∨
    ∃ a before p after, search radix h = some a ∧ a ∈ radix.head.labels ∧ log = before ++ p :: after ∧ Contains h p ∧ Same p a ∧
      (∀ q ∈ before, ¬ Contains h q) ∧
      ∀ q ∈ log, Contains h q → ∀ b ∈ radix.head.labels, Same q b → a.num h.family.is6 ≤ b.num h.family.is6

/-- The prefix gives the node an ordinal for the family. -/
def Gives (is6 : Bool) (a : RadixNode) (p : Prefix) : Prop := p.family.covers is6 = true ∧ Same p a

/-- The log has a prefix for the first node before it has one for the second. -/
def Before (log : List Prefix) (is6 : Bool) (a b : RadixNode) : Prop :=
  ∃ before p after, log = before ++ p :: after ∧ Gives is6 a p ∧ ∀ q ∈ before, ¬ Gives is6 b q

/-- The ordinals of a tree follow the log. -/
structure Ordered (radix : RadixTree) (log : List Prefix) : Prop where
  struct : Struct radix.head
  count : 0 ≤ radix.numAdded
  bound : ∀ a ∈ radix.head.labels, ∀ is6, a.num is6 = -1 ∨ 1 ≤ a.num is6 ∧ a.num is6 ≤ radix.numAdded
  given : ∀ p ∈ log, Given p
  present : ∀ p ∈ log, ∃ a ∈ radix.head.labels, Same p a
  numbered : ∀ a ∈ radix.head.labels, ∀ is6, a.num is6 ≠ -1 ↔ ∃ p ∈ log, Gives is6 a p
  before : ∀ a ∈ radix.head.labels, ∀ b ∈ radix.head.labels, ∀ is6, a.num is6 ≠ -1 → b.num is6 ≠ -1 → a ≠ b →
    a.num is6 < b.num is6 ∧ Before log is6 a b ∨ b.num is6 < a.num is6 ∧ Before log is6 b a
  active : radix.numActive = radix.head.labels.length

theorem Given.ok {p : Prefix} (h : Given p) : p.Ok := by
  refine ⟨h.legal, ?_⟩
  rw [h.length]
  obtain ⟨-, h⟩ | ⟨-, h⟩ | ⟨-, h⟩ := h.legal <;> omega

/-! ### Search -/

section search

variable {radix : RadixTree} {log : List Prefix} {h : Prefix} {a b : RadixNode}

theorem matches_of_contains {p : Prefix} (hs : Same p a) (hc : Contains h p) : Matches RadixNode.bit key (toBits h.add) a := by
  obtain ⟨hbit, k, hk, hagree⟩ := hs
  refine ⟨k, hk, hagree.trans ?_⟩
  rw [hbit]
  exact hc.2

theorem contains_of_matches {p : Prefix} (hs : Same p a) (hm : Matches RadixNode.bit key (toBits h.add) a)
    (hcovers : p.family.covers h.family.is6 = true) : Contains h p := by
  obtain ⟨hbit, k, hk, hagree⟩ := hs
  obtain ⟨k', hk', hagree'⟩ := hm
  have heq : k' = k := Option.some.inj (hk'.symm.trans hk)
  subst heq
  refine ⟨hcovers, ?_⟩
  rw [← hbit]
  exact hagree.symm.trans hagree'

/-- What a search for an address hits. -/
theorem hit_iff_matches (hp : IsHost h) (ha : NodeOk a) :
    Hit h a ↔ a.num h.family.is6 ≠ -1 ∧ Matches RadixNode.bit key (toBits h.add) a := by
  have hcomp : ∀ p ∈ a.pfx, (compWithMask p.add h.add p.bitlen = true ↔ Agree a.bit (toBits p.add) (toBits h.add)) := by
    intro p hpa
    obtain ⟨-, hlen, hle⟩ := ha.pfx p hpa
    have h128 := ha.bit_le
    unfold RADIX_MAXBITS at h128
    rw [compWithMask_iff (by omega) (by rw [hp.length]; omega), hlen]
  constructor
  · rintro ⟨hnum, p, hpa, hc⟩
    exact ⟨hnum, toBits p.add, Option.mem_map_of_mem _ hpa, (hcomp p hpa).1 hc⟩
  · rintro ⟨hnum, k, hk, hagree⟩
    obtain ⟨p, hpa, rfl⟩ := Option.map_eq_some_iff.1 hk
    exact ⟨hnum, p, hpa, (hcomp p hpa).2 hagree⟩

/-- A node with an ordinal for the host's family is not deeper than the host's address is long. -/
theorem Ordered.bit_le (ho : Ordered radix log) (hp : IsHost h) (ha : a ∈ radix.head.labels) (hnum : a.num h.family.is6 ≠ -1) :
    a.bit ≤ h.bitlen := by
  obtain ⟨p, hpl, hcovers, hsame⟩ := (ho.numbered a ha h.family.is6).1 hnum
  have h128 := ((ho.struct (fun _ => false)).nodes a ha).bit_le
  unfold RADIX_MAXBITS at h128
  rw [hp.bitlen]
  cases h6 : h.family.is6 with
  | true => exact h128
  | false =>
    rw [h6] at hcovers
    rw [hsame.1]
    exact (ho.given p hpl).legal.short hcovers

/-- The nodes that a search chooses from. -/
theorem Ordered.best (ho : Ordered radix log) (hp : IsHost h) :
    (search radix h = none ∧ ∀ a ∈ radix.head.labels, ¬ (a.num h.family.is6 ≠ -1 ∧ Matches RadixNode.bit key (toBits h.add) a)) ∨
    ∃ a ∈ radix.head.labels, search radix h = some a ∧ a.num h.family.is6 ≠ -1 ∧ Matches RadixNode.bit key (toBits h.add) a ∧
      ∀ b ∈ radix.head.labels, b.num h.family.is6 ≠ -1 → Matches RadixNode.bit key (toBits h.add) b →
        a.num h.family.is6 ≤ b.num h.family.is6 := by
  have hnodes := (ho.struct (fun _ => false)).nodes
  have hsub : ∀ a ∈ (searchStack h.add h.bitlen radix.head).reverse, a ∈ radix.head.labels := by
    intro a ha
    exact searchStack_sub _ _ _ a (mem_reverse.1 ha)
  have hstack : ∀ a ∈ radix.head.labels, a.num h.family.is6 ≠ -1 → Matches RadixNode.bit key (toBits h.add) a →
      a ∈ (searchStack h.add h.bitlen radix.head).reverse ∧ Hit h a := by
    intro a ha hnum hm
    refine ⟨mem_reverse.2 (mem_searchStack (ho.struct (fun _ => false)).fits ha hm (ho.bit_le hp ha hnum)), ?_⟩
    exact (hit_iff_matches hp (hnodes a ha)).2 ⟨hnum, hm⟩
  have hbest := foldl_pick_best h (searchStack h.add h.bitlen radix.head).reverse [] none
    (fun a ha => absurd ha not_mem_nil)
  rw [nil_append] at hbest
  change Best h _ (search radix h) at hbest
  cases hsearch : search radix h with
  | none =>
    rw [hsearch] at hbest
    refine .inl ⟨rfl, fun a ha hhit => ?_⟩
    obtain ⟨hmem, hit⟩ := hstack a ha hhit.1 hhit.2
    exact hbest a hmem hit
  | some a =>
    rw [hsearch] at hbest
    obtain ⟨ha, hit, hmin⟩ := hbest
    obtain ⟨hnum, hm⟩ := (hit_iff_matches hp (hnodes a (hsub a ha))).1 hit
    refine .inr ⟨a, hsub a ha, rfl, hnum, hm, fun b hb hnum' hm' => ?_⟩
    obtain ⟨hmem, hit'⟩ := hstack b hb hnum' hm'
    exact hmin b hmem hit'

/-- The prefixes of a node. -/
theorem same_congr {p q : Prefix} (ha : Same p a) (hb : Same p b) : Same q a ↔ Same q b := by
  have hmove : ∀ {a b : RadixNode}, Same p a → Same p b → Same q a → Same q b := by
    intro a b ha hb hq
    obtain ⟨k, hk, hagree⟩ := ha.key
    obtain ⟨k', hk', hagree'⟩ := hb.key
    obtain ⟨k'', hk'', hagree''⟩ := hq.key
    have heq : k'' = k := Option.some.inj (hk''.symm.trans hk)
    subst heq
    have hlen : q.bitlen = p.bitlen := hq.1.symm.trans ha.1
    refine ⟨hb.1.trans hlen.symm, k', hk', ?_⟩
    rw [hb.1]
    exact hagree'.trans (hagree.symm.trans (hlen ▸ hagree''))
  exact ⟨hmove ha hb, hmove hb ha⟩

/-- A prefix has one node. -/
theorem Struct.eq_of_same {t : BitTree RadixNode} {p : Prefix} (hs : Struct t) (ha : a ∈ t.labels) (hb : b ∈ t.labels)
    (hpa : Same p a) (hpb : Same p b) : a = b :=
  (hs (fun _ => false)).fits.eq_of_matches ha hb (hpa.1.trans hpb.1.symm) hpa.2 hpb.2

/-- A search follows the log. -/
theorem Ordered.findsFirst (ho : Ordered radix log) (hp : IsHost h) : FindsFirst radix log h := by
  have hnumbered : ∀ p ∈ log, Contains h p → ∀ b ∈ radix.head.labels, Same p b →
      b.num h.family.is6 ≠ -1 ∧ Matches RadixNode.bit key (toBits h.add) b := by
    intro p hpl hc b hb hsame
    exact ⟨(ho.numbered b hb h.family.is6).2 ⟨p, hpl, hc.1, hsame⟩, matches_of_contains hsame hc⟩
  obtain ⟨hnone, hno⟩ | ⟨a, ha, hsome, hnum, hm, hmin⟩ := ho.best hp
  · refine .inl ⟨hnone, fun p hpl hc => ?_⟩
    obtain ⟨b, hb, hsame⟩ := ho.present p hpl
    exact hno b hb (hnumbered p hpl hc b hb hsame)
  obtain ⟨p0, hp0, hcovers0, hsame0⟩ := (ho.numbered a ha h.family.is6).1 hnum
  have hc0 := contains_of_matches hsame0 hm hcovers0
  obtain ⟨p, before, after, hc, rfl, hfirst⟩ : ∃ p before after, Contains h p ∧ log = before ++ p :: after ∧
      ∀ q ∈ before, ¬ Contains h q := by
    classical
    have hfind : (log.find? (fun q => decide (Contains h q))).isSome = true :=
      find?_isSome.2 ⟨p0, hp0, decide_eq_true hc0⟩
    obtain ⟨p, hfound⟩ := Option.isSome_iff_exists.1 hfind
    obtain ⟨hc, before, after, hlog, hbefore⟩ := find?_eq_some_iff_append.1 hfound
    exact ⟨p, before, after, of_decide_eq_true hc, hlog, fun q hq hq' => by simpa [hq'] using hbefore q hq⟩
  have hpl : p ∈ before ++ p :: after := mem_append_right _ mem_cons_self
  obtain ⟨b, hb, hsame⟩ := ho.present p hpl
  obtain ⟨hnum', hm'⟩ := hnumbered p hpl hc b hb hsame
  have hab : a = b := by
    by_contra hne
    obtain ⟨-, before', q, after', hlog, ⟨hqcovers, hqsame⟩, hbefore'⟩ | ⟨hlt, -⟩ :=
      ho.before a ha b hb h.family.is6 hnum hnum' hne
    · have hq := contains_of_matches hqsame hm hqcovers
      -- the first match is at or before the prefix of `a`, so it is that one or a prefix of `b` before it
      obtain ⟨rest, hrest, hrest'⟩ | ⟨rest, hrest, hrest'⟩ := append_eq_append_iff.1 hlog
      · cases rest with
        | nil =>
          obtain ⟨rfl, -⟩ := cons.inj hrest'
          exact hne (ho.struct.eq_of_same ha hb hqsame hsame)
        | cons x rest =>
          obtain ⟨rfl, -⟩ := cons.inj hrest'
          refine hbefore' p ?_ ⟨hc.1, hsame⟩
          rw [hrest]
          exact mem_append_right _ mem_cons_self
      cases rest with
      | nil =>
        obtain ⟨rfl, -⟩ := cons.inj hrest'
        exact hne (ho.struct.eq_of_same ha hb hqsame hsame)
      | cons x rest =>
        obtain ⟨rfl, -⟩ := cons.inj hrest'
        refine hfirst q ?_ hq
        rw [hrest]
        exact mem_append_right _ mem_cons_self
    · exact absurd (hmin b hb hnum' hm') (by omega)
  subst hab
  refine .inr ⟨a, before, p, after, hsome, ha, rfl, hc, hsame, hfirst, fun q hq hqc c hc' hqs => ?_⟩
  obtain ⟨hcnum, hcm⟩ := hnumbered q hq hqc c hc' hqs
  exact hmin c hc' hcnum hcm

end search

/-! ### One more prefix -/

section insertion

variable {radix : RadixTree} {log : List Prefix} {p : Prefix} {is6 : Bool} {a b : RadixNode}

theorem gives_congr (ha : Same p a) (hb : Same p b) (q : Prefix) : Gives is6 a q ↔ Gives is6 b q :=
  and_congr_right fun _ => same_congr ha hb

theorem Before.snoc (h : Before log is6 a b) (p : Prefix) : Before (log ++ [p]) is6 a b := by
  obtain ⟨before, q, after, rfl, hq, hno⟩ := h
  refine ⟨before, q, after ++ [p], ?_, hq, hno⟩
  rw [append_assoc, cons_append]

theorem Before.congr {a' b' : RadixNode} (h : Before log is6 a b) (ha : ∀ q, Gives is6 a q ↔ Gives is6 a' q)
    (hb : ∀ q, Gives is6 b q ↔ Gives is6 b' q) : Before log is6 a' b' := by
  obtain ⟨before, q, after, rfl, hq, hno⟩ := h
  exact ⟨before, q, after, rfl, (ha q).1 hq, fun q' hq' hg => hno q' hq' ((hb q').2 hg)⟩

/-- What a node for the prefix has from before: nothing, or its ordinal in the log. -/
structure Earlier (radix : RadixTree) (log : List Prefix) (p : Prefix) (a : RadixNode) (is6 : Bool) (prev : ℤ) : Prop where
  bound : prev = -1 ∨ 1 ≤ prev ∧ prev ≤ radix.numAdded
  numbered : prev ≠ -1 ↔ ∃ q ∈ log, Gives is6 a q
  before : prev ≠ -1 → ∀ x ∈ radix.head.labels, x.num is6 ≠ -1 → ¬ Same p x →
    prev < x.num is6 ∧ Before log is6 a x ∨ x.num is6 < prev ∧ Before log is6 x a

/-- The ordinals of the node of an inserted prefix. -/
theorem Ordered.made (ho : Ordered radix log) (ha : Same p a) {num : ℤ} (hmade : Made radix none p a num) (is6 : Bool) :
    radix.numAdded ≤ num ∧ ∃ prev, Earlier radix log p a is6 prev ∧
      (prev = -1 ∧ p.family.covers is6 = true ∧ a.num is6 = radix.numAdded + 1 ∧ num = radix.numAdded + 1 ∨
        ¬ (prev = -1 ∧ p.family.covers is6 = true) ∧ a.num is6 = prev) := by
  obtain ⟨b, hb, hpb, heq⟩ | ⟨hno, q, heq⟩ := hmade
  · obtain ⟨rfl, rfl⟩ := Prod.ext_iff.1 heq
    obtain ⟨hle, -, hnew⟩ := renumber_none_count radix p.family b is6
    obtain ⟨hnum, -⟩ := renumber_none_num radix p.family b is6
    refine ⟨hle, b.num is6, ⟨ho.bound b hb is6, ?_, fun hne x hx hxne hpx => ?_⟩, ?_⟩
    · rw [ho.numbered b hb is6]
      exact exists_congr fun q => and_congr_right fun _ => gives_congr hpb ha q
    · have hbx : b ≠ x := fun h => hpx (h ▸ hpb)
      refine (ho.before b hb x hx is6 hne hxne hbx).imp (And.imp_right fun h => ?_) (And.imp_right fun h => ?_)
      · exact h.congr (gives_congr hpb ha) (fun _ => Iff.rfl)
      · exact h.congr (fun _ => Iff.rfl) (gives_congr hpb ha)
    · by_cases hcase : b.num is6 = -1 ∧ p.family.covers is6 = true
      · rw [if_pos hcase] at hnum
        exact .inl ⟨hcase.1, hcase.2, hnum.trans (hnew hcase), hnew hcase⟩
      · rw [if_neg hcase] at hnum
        exact .inr ⟨hcase, hnum⟩
  obtain ⟨rfl, rfl⟩ := Prod.ext_iff.1 heq
  obtain ⟨hnum, -⟩ := newNode_num radix p.family p.bitlen q is6
  have hcount : (newNode radix none p.family p.bitlen q).2 = radix.numAdded + 1 := rfl
  rw [hcount]
  refine ⟨by omega, -1, ⟨Or.inl rfl, ⟨fun h => absurd rfl h, ?_⟩, fun h => absurd rfl h⟩, ?_⟩
  · rintro ⟨q', hq', hgives⟩
    obtain ⟨b, hb, hsame⟩ := ho.present q' hq'
    exact absurd ((same_congr hgives.2 hsame).1 ha) (hno b hb)
  · by_cases hcovers : p.family.covers is6 = true
    · rw [if_pos hcovers] at hnum
      exact .inl ⟨rfl, hcovers, hnum, rfl⟩
    · rw [if_neg hcovers] at hnum
      exact .inr ⟨fun h => hcovers h.2, hnum⟩

theorem Inserted.mem_cases {t : BitTree RadixNode} {place : Place} (h : Inserted t p place) {x : RadixNode}
    (hx : x ∈ place.root.labels) : x = place.node ∨ (x ∈ t.labels ∧ ¬ Same p x) ∨ ∀ is6, x.num is6 = -1 ∧ ∀ q, ¬ Same q x := by
  obtain rfl | ⟨hnone, -⟩ | hold := h.of_mem hx
  · exact .inl rfl
  · have hnode := (h.struct (fun _ => false)).nodes x hx
    obtain ⟨h4, h6, -⟩ := hnode.glue hnone
    refine .inr (.inr fun is6 => ⟨?_, fun q hq => hq.pfx_ne hnone⟩)
    cases is6 with
    | false => exact h4
    | true => exact h6
  · exact .inr (.inl hold)

theorem Ordered.insert (ho : Ordered radix log) (hp : Given p) {place : Place} {num active : ℤ} (hins : Inserted radix.head p place)
    (hmade : Made radix none p place.node num)
    (hcount : active + radix.head.labels.length = radix.numActive + place.root.labels.length) :
    Ordered ⟨place.root, num, active⟩ (log ++ [p]) := by
  have hle := (ho.made hins.same hmade false).1
  have hzero := ho.count
  have hgives : ∀ is6, Gives is6 place.node p ↔ p.family.covers is6 = true := fun _ => and_iff_left hins.same
  have hlog : ∀ is6 x, (∃ q ∈ log ++ [p], Gives is6 x q) ↔ (∃ q ∈ log, Gives is6 x q) ∨ Gives is6 x p := by
    intro is6 x
    simp only [mem_append, mem_singleton, or_and_right, exists_or, exists_eq_left]
  refine ⟨hins.struct, hzero.trans hle, ?_, ?_, ?_, ?_, ?_, ?_⟩
  · intro x hx is6
    obtain rfl | ⟨hx, -⟩ | hglue := hins.mem_cases hx
    · obtain ⟨-, prev, hprev, ⟨-, -, hnum, hnew⟩ | ⟨-, hnum⟩⟩ := ho.made hins.same hmade is6
      · exact .inr ⟨by omega, by show _ ≤ num; omega⟩
      · rw [hnum]
        exact hprev.bound.imp id (fun h => ⟨h.1, h.2.trans hle⟩)
    · exact (ho.bound x hx is6).imp id (fun h => ⟨h.1, h.2.trans hle⟩)
    · exact .inl (hglue is6).1
  · intro q hq
    obtain hq | hq := mem_append.1 hq
    · exact ho.given q hq
    · rw [mem_singleton.1 hq]
      exact hp
  · intro q hq
    obtain hq | hq := mem_append.1 hq
    · obtain ⟨b, hb, hsame⟩ := ho.present q hq
      by_cases hpb : Same p b
      · exact ⟨place.node, Place.mem_root.2 (Or.inl rfl), (same_congr hpb hins.same).1 hsame⟩
      · exact ⟨b, Place.mem_root.2 (Or.inr ((hins.others b hsame.pfx_ne).2 ⟨hb, hpb⟩)), hsame⟩
    · rw [mem_singleton.1 hq]
      exact ⟨place.node, Place.mem_root.2 (Or.inl rfl), hins.same⟩
  · intro x hx is6
    rw [hlog]
    obtain rfl | ⟨hx, hpx⟩ | hglue := hins.mem_cases hx
    · obtain ⟨-, prev, hprev, ⟨-, hcovers, hnum, -⟩ | ⟨hno, hnum⟩⟩ := ho.made hins.same hmade is6
      · exact ⟨fun _ => Or.inr ((hgives is6).2 hcovers), fun _ => by omega⟩
      · rw [hnum, hprev.numbered]
        refine ⟨Or.inl, fun h => h.elim id fun hg => ?_⟩
        rw [← hprev.numbered]
        exact fun hnone => hno ⟨hnone, (hgives is6).1 hg⟩
    · rw [ho.numbered x hx is6]
      exact ⟨Or.inl, fun h => h.elim id fun hg => absurd hg.2 hpx⟩
    · obtain ⟨hnum, hno⟩ := hglue is6
      rw [hnum]
      exact ⟨fun h => absurd rfl h, fun h => h.elim (fun ⟨q, _, hg⟩ => absurd hg.2 (hno q)) (fun hg => absurd hg.2 (hno p))⟩
  · have hpair : ∀ is6, ∀ x ∈ radix.head.labels, ¬ Same p x → place.node.num is6 ≠ -1 → x.num is6 ≠ -1 →
        place.node.num is6 < x.num is6 ∧ Before (log ++ [p]) is6 place.node x ∨
        x.num is6 < place.node.num is6 ∧ Before (log ++ [p]) is6 x place.node := by
      intro is6 x hx hpx hne hxne
      obtain ⟨-, prev, hprev, ⟨hnone, -, hnum, -⟩ | ⟨-, hnum⟩⟩ := ho.made hins.same hmade is6
      · refine .inr ⟨?_, ?_⟩
        · obtain hx1 | ⟨-, hx1⟩ := ho.bound x hx is6
          · exact absurd hx1 hxne
          · omega
        · obtain ⟨q, hq, hg⟩ := (ho.numbered x hx is6).1 hxne
          obtain ⟨before, after, rfl⟩ := append_of_mem hq
          refine Before.snoc ⟨before, q, after, rfl, hg, fun q' hq' hg' => ?_⟩ p
          exact hprev.numbered.2 ⟨q', mem_append_left _ hq', hg'⟩ hnone
      · rw [hnum] at hne ⊢
        exact (hprev.before hne x hx hxne hpx).imp (And.imp_right fun h => h.snoc p) (And.imp_right fun h => h.snoc p)
    intro x hx y hy is6 hxne hyne hxy
    obtain rfl | ⟨hx, hpx⟩ | hglue := hins.mem_cases hx
    · obtain rfl | ⟨hy, hpy⟩ | hglue := hins.mem_cases hy
      · exact absurd rfl hxy
      · exact hpair is6 y hy hpy hxne hyne
      · exact absurd (hglue is6).1 hyne
    · obtain rfl | ⟨hy, hpy⟩ | hglue := hins.mem_cases hy
      · exact (hpair is6 x hx hpx hyne hxne).symm
      · exact (ho.before x hx y hy is6 hxne hyne hxy).imp (And.imp_right fun h => h.snoc p) (And.imp_right fun h => h.snoc p)
      · exact absurd (hglue is6).1 hyne
    · exact absurd (hglue is6).1 hxne
  · have hactive := ho.active
    show active = (place.root.labels.length : ℤ)
    omega

end insertion

/-! ### Runs -/

/-- The trees that insertions make from the empty one, with the prefixes that have been inserted. -/
inductive Inserts : List Prefix → RadixTree → Prop
  | empty : Inserts [] ⟨.nil, 0, 0⟩
  | insert {log : List Prefix} {radix radix' : RadixTree} {sur : Surroundings} {p : Prefix} {place : Place} : Inserts log radix →
      Given p → insert sur radix none p = some (.success, radix', some place) → Inserts (log ++ [p]) radix'
  | nomemory {log : List Prefix} {radix radix' : RadixTree} {sur : Surroundings} {p : Prefix} : Inserts log radix →
      Given p → insert sur radix none p = some (.nomemory, radix', none) → Inserts log radix'

theorem Ordered.empty : Ordered ⟨.nil, 0, 0⟩ [] :=
  ⟨fun _ => ⟨trivial, trivial, nofun⟩, le_refl _, nofun, nofun, nofun, nofun, nofun, rfl⟩

theorem sourceOk_none : SourceOk none := fun s hs => by cases hs

theorem Ordered.insert_cases {radix : RadixTree} {log : List Prefix} (ho : Ordered radix log) (sur : Surroundings) {p : Prefix}
    (hp : Given p) : Radix.insert sur radix none p = some (.nomemory, radix, none) ∨
      ∃ radix' place, Radix.insert sur radix none p = some (.success, radix', some place) ∧ Ordered radix' (log ++ [p]) := by
  obtain hins | ⟨place, num, active, hins, hplace, hmade, hcount⟩ := insert_spec sur radix hp.ok sourceOk_none ho.struct
  · exact .inl hins
  · exact .inr ⟨_, place, hins, ho.insert hp hplace hmade hcount⟩

theorem Inserts.ordered {log : List Prefix} {radix : RadixTree} (h : Inserts log radix) : Ordered radix log := by
  induction h with
  | empty => exact .empty
  | @insert log radix radix' sur p place _ hp hins ih =>
    obtain hno | ⟨radix'', place', hins', ho⟩ := ih.insert_cases sur hp
    · rw [hins] at hno
      cases hno
    rw [hins] at hins'
    cases hins'
    exact ho
  | @nomemory log radix radix' sur p _ hp hins ih =>
    obtain hno | ⟨radix'', place', hins', -⟩ := ih.insert_cases sur hp
    · rw [hins] at hno
      cases hno
      exact ih
    · rw [hins] at hins'
      cases hins'

theorem Struct.isPatricia {t : BitTree RadixNode} (h : Struct t) : IsPatricia t :=
  ⟨fun c => (h c).fits, (h (fun _ => false)).forks⟩

/-- After any insertions the tree is a Patricia tree, no further insertion trips an assertion, and a search for an address finds
the prefix that was inserted first among those that contain it. -/
theorem inserts_findsFirst {log : List Prefix} {radix : RadixTree} (h : Inserts log radix) :
    IsPatricia radix.head ∧ (∀ sur p, Given p → insert sur radix none p ≠ none) ∧
      ∀ host, IsHost host → FindsFirst radix log host := by
  have ho := h.ordered
  refine ⟨ho.struct.isPatricia, fun sur p hp hnone => ?_, fun host hhost => ho.findsFirst hhost⟩
  obtain hins | ⟨radix', place, hins, -⟩ := ho.insert_cases sur hp
  · rw [hnone] at hins
    cases hins
  · rw [hnone] at hins
    cases hins

/-- Insertions one after the other, if each succeeds. -/
def insertAll (sur : Surroundings) : List Prefix → RadixTree → Option RadixTree
  | [], radix => some radix
  | p :: ps, radix => match insert sur radix none p with
    | some (.success, radix', some _) => insertAll sur ps radix'
    | _ => none

theorem Inserts.insertAll {sur : Surroundings} : ∀ {ps log : List Prefix} {radix radix' : RadixTree}, Inserts log radix →
    (∀ p ∈ ps, Given p) → insertAll sur ps radix = some radix' → Inserts (log ++ ps) radix'
  | [], log, _, _, h, _, hall => by
    cases hall
    rw [append_nil]
    exact h
  | p :: ps, log, radix, radix', h, hgiven, hall => by
    rw [Radix.insertAll] at hall
    split at hall
    next radix1 place hins =>
      have hone := h.insert (hgiven p mem_cons_self) hins
      rw [← singleton_append, ← append_assoc]
      exact hone.insertAll (fun q hq => hgiven q (mem_cons_of_mem p hq)) hall
    · cases hall

/-- A prefix with the first bytes of its address. -/
def sample (family : Family) (bitlen : ℕ) (bytes : List (BitVec 8)) : Prefix :=
  ⟨family, bitlen, bytes ++ replicate (16 - bytes.length) 0⟩

/-- 10.0.0.0/16, 10.0.0.0/8 above it, 192.0.0.0/8 beside them, 2001:db8::/32 below a glue node, and "any" above all. -/
def nestedLog : List Prefix :=
  [sample .inet 16 [10], sample .inet 8 [10], sample .inet 8 [192], sample .inet6 32 [0x20, 1, 0x0d, 0xb8], sample .unspec 0 []]

def nestedTree : RadixTree := (insertAll ⟨true, true, true, []⟩ nestedLog ⟨.nil, 0, 0⟩).getD ⟨.nil, 0, 0⟩

/-- The ordinals of what is found from 10.0.0.1, 10.1.0.1, 11.0.0.1 and 2001:db8::1. -/
theorem inserts_findsFirst_nested : Inserts nestedLog nestedTree ∧ IsPatricia nestedTree.head ∧
    (∃ a ∈ nestedTree.head.labels, a.pfx = none) ∧
    ∀ h ∈ [(sample .inet 32 [10, 0, 0, 1], 1), (sample .inet 32 [10, 1, 0, 1], 2), (sample .inet 32 [11, 0, 0, 1], 5),
        (sample .inet6 128 [0x20, 1, 0x0d, 0xb8], 4)],
      FindsFirst nestedTree nestedLog h.1 ∧ (search nestedTree h.1).map (fun a => a.num h.1.family.is6) = some h.2 := by
  have hall : (insertAll ⟨true, true, true, []⟩ nestedLog ⟨.nil, 0, 0⟩).isSome = true := by decide +kernel
  have hrun : Inserts ([] ++ nestedLog) nestedTree := by
    have hgiven : ∀ p ∈ nestedLog, p.Legal ∧ p.add.length = 16 := by decide
    obtain ⟨radix, h⟩ := Option.isSome_iff_exists.1 hall
    unfold nestedTree
    rw [h]
    exact Inserts.empty.insertAll (fun p hp => ⟨(hgiven p hp).1, (hgiven p hp).2⟩) h
  have hglue : ∃ a ∈ nestedTree.head.labels, a.pfx = none := by decide +kernel
  refine ⟨hrun, (inserts_findsFirst hrun).1, hglue, fun h hh => ⟨(inserts_findsFirst hrun).2.2 h.1 ⟨?_, ?_⟩, ?_⟩⟩
  · revert h
    decide
  · revert h
    decide
  · revert h
    decide +kernel

end Bind9.Radix
