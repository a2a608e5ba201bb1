import Bind9.Acl
import Bind9.RadixTree

/-! # The table that an IP table stands for

A radix tree maps each prefix, for each address family, to an ordinal and a sign (`At`).

* `search_spec`: a search finds the least ordinal among the prefixes of an address.
* `iptableAddPrefix_spec` and `iptableMerge_spec`: a prefix keeps the entry it has, and else gets the new
  one.  For a merge this takes that the two trees have nothing in common that goes wrong
  (`Mergeable`). -/

namespace Bind9.Radix

open Patricia
open List
open Option hiding max_le

/-! ### Entries -/

/-- The entry of a node for a family: its ordinal and its sign. -/
def RadixNode.slot (a : RadixNode) (is6 : Bool) : Option (ℤ × Bool) :=
  if a.num is6 = -1 then none else (a.data is6).map (fun v => (a.num is6, v))

/-- The node has an ordinal, at most `N`, where it has data. -/
structure NumsOk (N : ℤ) (a : RadixNode) : Prop where
  family : ∀ is6, a.num is6 = -1 ∧ a.data is6 = none ∨
    1 ≤ a.num is6 ∧ a.num is6 ≤ N ∧ a.data is6 ≠ none
  short : a.num4 ≠ -1 → a.bit ≤ 32

/-- The tree has the entry for the first `len` bits of `k`. -/
def At (t : BitTree RadixNode) (is6 : Bool) (len : ℕ) (k : Bits) (n : ℤ) (v : Bool) : Prop :=
  ∃ a ∈ t.labels, a.bit = len ∧ Matches RadixNode.bit key k a ∧ a.slot is6 = some (n, v)

variable {a b s : RadixNode}

theorem slot_eq_some {is6 : Bool} {n : ℤ} {v : Bool} :
    a.slot is6 = some (n, v) ↔ a.num is6 = n ∧ a.num is6 ≠ -1 ∧ a.data is6 = some v := by
  unfold RadixNode.slot
  split
  · next h1 => simp [h1]
  next h1 =>
    simp only [map_eq_some_iff, Prod.mk.injEq]
    constructor
    · rintro ⟨w, hw, rfl, rfl⟩
      exact ⟨rfl, h1, hw⟩
    · rintro ⟨rfl, -, hv⟩
      exact ⟨v, hv, rfl, rfl⟩

variable {M N K : ℤ}

theorem NumsOk.mono (h : NumsOk M a) (hMN : M ≤ N) : NumsOk N a := by
  refine ⟨fun is6 => ?_, h.short⟩
  rcases h.family is6 with h' | ⟨h1, h2, h3⟩
  · exact .inl h'
  · exact .inr ⟨h1, by omega, h3⟩

/-! ### Search -/

theorem searchStack_sub (addr : List (BitVec 8)) (bitlen : ℕ) : ∀ (t : BitTree RadixNode),
    ∀ a ∈ searchStack addr bitlen t, a ∈ t.labels
  | .nil, _, ha => ha
  | .node b l r, a, ha => by
    have hhere : ∀ x ∈ (if b.pfx.isSome then [b] else []), x = b := by
      intro x hx
      split at hx
      · simpa using hx
      · simp at hx
    rw [searchStack] at ha
    rw [BitTree.mem_labels_node]
    split at ha
    · split at ha
      · rcases mem_append.1 ha with ha | ha
        · exact .inl (hhere a ha)
        · exact .inr (.inr (searchStack_sub addr bitlen r a ha))
      · rcases mem_append.1 ha with ha | ha
        · exact .inl (hhere a ha)
        · exact .inr (.inl (searchStack_sub addr bitlen l a ha))
    · exact .inl (hhere a ha)

variable {bitlen : ℕ}

theorem mem_searchStack {addr : List (BitVec 8)} : ∀ {t : BitTree RadixNode} {c : Bits} {n : ℕ}
    {a : RadixNode}, Fits RadixNode.bit key c n t → a ∈ t.labels → Matches RadixNode.bit key (toBits addr) a →
      a.bit ≤ bitlen → a ∈ searchStack addr bitlen t
  | .node b l r, c, n, a, ⟨_, k, _, _, hl, hr⟩, ha, hm, hbit => by
    rw [searchStack]
    rcases BitTree.mem_labels_node.1 ha with rfl | ha | ha
    · have hsome : a.pfx.isSome = true := by
        obtain ⟨k, hk, -⟩ := hm
        obtain ⟨p, hp, -⟩ := map_eq_some_iff.1 hk
        rw [hp]
        rfl
      rw [if_pos hsome]
      split
      · split <;> simp
      · simp
    · have hlt := (hl.of_mem ha).1
      have hside : bitTest addr b.bit = false := by
        rw [bitTest_eq]
        cases h : toBits addr b.bit with
        | false => rfl
        | true => exact absurd hm (not_matches_of_other hl ha (by simp [h]))
      rw [if_pos (by omega), hside, if_neg (by simp)]
      exact mem_append_right _ (mem_searchStack hl ha hm hbit)
    · have hlt := (hr.of_mem ha).1
      have hside : bitTest addr b.bit = true := by
        rw [bitTest_eq]
        cases h : toBits addr b.bit with
        | true => rfl
        | false => exact absurd hm (not_matches_of_other hr ha (by simp [h]))
      rw [if_pos (by omega), hside, if_pos rfl]
      exact mem_append_right _ (mem_searchStack hr ha hm hbit)

/-- The node is found by a search for the prefix. -/
def Hit (pfx : Prefix) (a : RadixNode) : Prop :=
  a.num pfx.family.is6 ≠ -1 ∧ ∃ p ∈ a.pfx, compWithMask p.add pfx.add p.bitlen = true

def Best (pfx : Prefix) (seen : List RadixNode) : Option RadixNode → Prop
  | none => ∀ a ∈ seen, ¬ Hit pfx a
  | some b => b ∈ seen ∧ Hit pfx b ∧ ∀ a ∈ seen, Hit pfx a → b.num pfx.family.is6 ≤ a.num pfx.family.is6

variable {pfx p : Prefix}

theorem pick_best {seen : List RadixNode} {target : Option RadixNode}
    (h : Best pfx seen target) : Best pfx (seen ++ [a]) (pick pfx target a) := by
  have keep : ¬ Hit pfx a → Best pfx (seen ++ [a]) target := by
    intro hno
    cases target with
    | none =>
      intro b hb
      rcases mem_append.1 hb with hb | hb
      · exact h b hb
      · rw [mem_singleton.1 hb]
        exact hno
    | some t =>
      refine ⟨mem_append_left _ h.1, h.2.1, fun b hb hit => ?_⟩
      rcases mem_append.1 hb with hb | hb
      · exact h.2.2 b hb hit
      · rw [mem_singleton.1 hb] at hit
        exact absurd hit hno
  unfold pick
  split
  · next hnone =>
      apply keep
      rintro ⟨-, p, hp, -⟩
      rw [hnone] at hp
      cases hp
  next p hp =>
    split
    · next hcomp =>
        split
        · next hless =>
            have hit : Hit pfx a := ⟨hless.1, p, hp, hcomp⟩
            refine ⟨by simp, hit, fun b hb hitb => ?_⟩
            rcases mem_append.1 hb with hb | hb
            · cases target with
              | none => exact absurd hitb (h b hb)
              | some t =>
                have h1 := hless.2 t rfl
                have h2 := h.2.2 b hb hitb
                omega
            · rw [mem_singleton.1 hb]
        next hless =>
          by_cases hnum : a.num pfx.family.is6 = -1
          · exact keep (fun hit => hit.1 hnum)
          obtain _ | t := target
          · exact absurd ⟨hnum, by simp⟩ hless
          have hle : t.num pfx.family.is6 ≤ a.num pfx.family.is6 := by
            by_contra hgt
            refine hless ⟨hnum, fun t' ht' => ?_⟩
            cases ht'
            omega
          refine ⟨mem_append_left _ h.1, h.2.1, fun b hb hit => ?_⟩
          rcases mem_append.1 hb with hb | hb
          · exact h.2.2 b hb hit
          · rw [mem_singleton.1 hb]
            exact hle
    next hcomp =>
      apply keep
      rintro ⟨-, q, hq, hqc⟩
      rw [hp] at hq
      cases hq
      exact hcomp hqc

theorem foldl_pick_best (pfx : Prefix) : ∀ (rest seen : List RadixNode) (target : Option RadixNode),
    Best pfx seen target → Best pfx (seen ++ rest) (rest.foldl (pick pfx) target)
  | [], seen, _, h => by
    rw [append_nil]
    exact h
  | a :: rest, seen, target, h => by
    have := foldl_pick_best pfx rest (seen ++ [a]) (pick pfx target a) (pick_best h)
    rwa [append_assoc] at this

/-- The prefix of one address. -/
structure IsHost (pfx : Prefix) : Prop where
  length : pfx.add.length = 16
  bitlen : pfx.bitlen = if pfx.family.is6 then 128 else 32

theorem hit_iff (hp : IsHost pfx) (ha : NodeOk a) (hn : NumsOk N a) :
    Hit pfx a ↔ ∃ v, a.slot pfx.family.is6 = some (a.num pfx.family.is6, v) ∧
      Matches RadixNode.bit key (toBits pfx.add) a := by
  have hcomp : ∀ p ∈ a.pfx, (compWithMask p.add pfx.add p.bitlen = true ↔
      Agree a.bit (toBits p.add) (toBits pfx.add)) := by
    intro p hpa
    obtain ⟨-, hlen, hle⟩ := ha.pfx p hpa
    have h128 := ha.bit_le
    unfold RADIX_MAXBITS at h128
    rw [compWithMask_iff (by omega) (by rw [hp.length]; omega), hlen]
  constructor
  · rintro ⟨hnum, p, hpa, hc⟩
    obtain ⟨v, hv⟩ : ∃ v, a.data pfx.family.is6 = some v := by
      rcases hn.family pfx.family.is6 with ⟨h, -⟩ | ⟨-, -, h⟩
      · exact absurd h hnum
      · exact ne_none_iff_exists'.1 h
    refine ⟨v, slot_eq_some.2 ⟨rfl, hnum, hv⟩, toBits p.add, ?_, (hcomp p hpa).1 hc⟩
    exact Option.mem_map_of_mem _ hpa
  · rintro ⟨v, hslot, k, hk, hagree⟩
    obtain ⟨p, hpa, rfl⟩ := map_eq_some_iff.1 hk
    exact ⟨(slot_eq_some.1 hslot).2.1, p, hpa, (hcomp p hpa).2 hagree⟩

variable {radix : RadixTree}

theorem search_spec (hs : Struct radix.head) (hn : ∀ a ∈ radix.head.labels, NumsOk N a) (hp : IsHost pfx) :
    (search radix pfx = none ∧ ∀ len n v, ¬ At radix.head pfx.family.is6 len (toBits pfx.add) n v) ∨
      ∃ a len v, search radix pfx = some a ∧ a.data pfx.family.is6 = some v ∧
        At radix.head pfx.family.is6 len (toBits pfx.add) (a.num pfx.family.is6) v ∧
        ∀ len' n' v', At radix.head pfx.family.is6 len' (toBits pfx.add) n' v' → a.num pfx.family.is6 ≤ n' := by
  have hnodes := (hs (fun _ => false)).nodes
  have hsub : ∀ a ∈ (searchStack pfx.add pfx.bitlen radix.head).reverse, a ∈ radix.head.labels := by
    intro a ha
    exact searchStack_sub _ _ _ a (mem_reverse.1 ha)
  have hstack : ∀ len n v, At radix.head pfx.family.is6 len (toBits pfx.add) n v →
      ∃ a ∈ (searchStack pfx.add pfx.bitlen radix.head).reverse, Hit pfx a ∧ a.num pfx.family.is6 = n := by
    rintro len n v ⟨a, ha, -, hm, hslot⟩
    obtain ⟨hnum, hne, -⟩ := slot_eq_some.1 hslot
    have hbit : a.bit ≤ pfx.bitlen := by
      have h128 := (hnodes a ha).bit_le
      unfold RADIX_MAXBITS at h128
      rw [hp.bitlen]
      split
      · exact h128
      next h6 =>
        apply (hn a ha).short
        simpa [RadixNode.num, h6] using hne
    refine ⟨a, mem_reverse.2 (mem_searchStack (hs (fun _ => false)).fits ha hm hbit), ?_, hnum⟩
    exact (hit_iff hp (hnodes a ha) (hn a ha)).2 ⟨v, hnum ▸ hslot, hm⟩
  have hbest := foldl_pick_best pfx (searchStack pfx.add pfx.bitlen radix.head).reverse [] none
    (fun a ha => absurd ha not_mem_nil)
  rw [nil_append] at hbest
  change Best pfx _ (search radix pfx) at hbest
  cases hsearch : search radix pfx with
  | none =>
    rw [hsearch] at hbest
    refine .inl ⟨rfl, fun len n v hat => ?_⟩
    obtain ⟨a, ha, hit, -⟩ := hstack len n v hat
    exact hbest a ha hit
  | some a =>
    rw [hsearch] at hbest
    obtain ⟨ha, hit, hmin⟩ := hbest
    obtain ⟨v, hslot, hm⟩ := (hit_iff hp (hnodes a (hsub a ha)) (hn a (hsub a ha))).1 hit
    refine .inr ⟨a, a.bit, v, rfl, (slot_eq_some.1 hslot).2.2, ⟨a, hsub a ha, rfl, hm, hslot⟩, ?_⟩
    intro len' n' v' hat
    obtain ⟨b, hb, hitb, rfl⟩ := hstack len' n' v' hat
    exact hmin b hb hitb

/-! ### One prefix more -/

/-- The entries of a tree after the entries `new` have been put to a prefix. -/
def Updated (t t' : BitTree RadixNode) (p : Prefix) (new : Bool → Option (ℤ × Bool)) : Prop :=
  ∀ is6 len k n v, At t' is6 len k n v ↔ At t is6 len k n v ∨
    (∀ n' v', ¬ At t is6 len k n' v') ∧ len = p.bitlen ∧ Agree len (toBits p.add) k ∧ new is6 = some (n, v)

variable {k : Bits}

theorem pfx_ne_of_matches (h : Matches RadixNode.bit key k a) : a.pfx ≠ none := by
  obtain ⟨k', hk', -⟩ := h
  intro hnone
  rw [key, hnone] at hk'
  cases hk'

theorem same_iff (hk : Agree p.bitlen (toBits p.add) k) : Same p a ↔ a.bit = p.bitlen ∧ Matches RadixNode.bit key k a := by
  unfold Same Matches
  constructor
  · rintro ⟨hbit, k', hk', hagree⟩
    exact ⟨hbit, k', hk', hagree.trans (hbit ▸ hk)⟩
  · rintro ⟨hbit, k', hk', hagree⟩
    exact ⟨hbit, k', hk', hagree.trans (hbit ▸ hk.symm)⟩

/-- The entries of a node: those that the tree has for the prefix, and else the new ones. -/
def SlotFrom (t : BitTree RadixNode) (p : Prefix) (new : Bool → Option (ℤ × Bool)) (a : RadixNode) : Prop :=
  (∃ b ∈ t.labels, Same p b ∧ ∀ is6, a.slot is6 = (b.slot is6).or (new is6)) ∨
    (∀ b ∈ t.labels, ¬ Same p b) ∧ ∀ is6, a.slot is6 = new is6

variable {t : BitTree RadixNode} {place : Place}

/-- The prefix keeps the entries it has, and gets the others. -/
theorem Inserted.updated
    {new : Bool → Option (ℤ × Bool)} (hs : Struct t) (h : Inserted t p place) (hbit : a.bit = place.node.bit)
    (hpfx : a.pfx = place.node.pfx) (hslot : SlotFrom t p new a) :
    Updated t (Place.root { place with node := a }) p new := by
  have hsame : Same p a := by
    have := h.same
    unfold Same Matches key at *
    rw [hbit, hpfx]
    exact this
  intro is6 len k n v
  by_cases hk : len = p.bitlen ∧ Agree len (toBits p.add) k
  · obtain ⟨rfl, hk⟩ := hk
    have hnew : At (Place.root { place with node := a }) is6 p.bitlen k n v ↔ a.slot is6 = some (n, v) := by
      constructor
      · rintro ⟨x, hx, hxbit, hm, hsl⟩
        have hxs : Same p x := (same_iff hk).2 ⟨hxbit, hm⟩
        rcases Place.mem_root.1 hx with rfl | hx
        · exact hsl
        · exact absurd hxs ((h.others x hxs.pfx_ne).1 hx).2
      · intro hsl
        obtain ⟨h1, h2⟩ := (same_iff hk).1 hsame
        exact ⟨a, Place.mem_root.2 (Or.inl rfl), h1, h2, hsl⟩
    rw [hnew]
    rcases hslot with ⟨b, hb, hbs, hsl⟩ | ⟨hno, hsl⟩
    · have hold : ∀ n v, At t is6 p.bitlen k n v ↔ b.slot is6 = some (n, v) := by
        obtain ⟨hb1, hb2⟩ := (same_iff hk).1 hbs
        intro n v
        constructor
        · rintro ⟨x, hx, hxbit, hm, hslx⟩
          rw [(hs (fun _ => false)).fits.eq_of_matches hb hx (hb1.trans hxbit.symm) hb2 hm]
          exact hslx
        · intro hslb
          exact ⟨b, hb, hb1, hb2, hslb⟩
      rw [hsl]
      simp only [hold]
      cases hbsl : b.slot is6 with
      | none => simp [hk]
      | some e =>
        rw [some_or]
        constructor
        · exact .inl
        · rintro (h' | ⟨hnone, -⟩)
          · exact h'
          · exact absurd rfl (hnone e.1 e.2)
    have hold : ∀ n v, ¬ At t is6 p.bitlen k n v := by
      rintro n v ⟨x, hx, hxbit, hm, -⟩
      exact hno x hx ((same_iff hk).2 ⟨hxbit, hm⟩)
    rw [hsl]
    simp only [hold, hk]
    simp
  have hdiff : ∀ x : RadixNode, x.bit = len → Matches RadixNode.bit key k x → ¬ Same p x := by
    rintro x hxl ⟨k', hk', hagree⟩ ⟨hxbit, k'', hk'', hagree'⟩
    have heq : k' = k'' := Option.some.inj (hk'.symm.trans hk'')
    rw [← heq] at hagree'
    apply hk
    refine ⟨hxl.symm.trans hxbit, ?_⟩
    rw [← hxl]
    exact hagree'.symm.trans hagree
  have hiff : At (Place.root { place with node := a }) is6 len k n v ↔ At t is6 len k n v := by
    constructor
    · rintro ⟨x, hx, hxbit, hm, hsl⟩
      have hxp := pfx_ne_of_matches hm
      rcases Place.mem_root.1 hx with rfl | hx
      · exact absurd hsame (hdiff _ hxbit hm)
      · exact ⟨x, ((h.others x hxp).1 hx).1, hxbit, hm, hsl⟩
    · rintro ⟨x, hx, hxbit, hm, hsl⟩
      have hxp := pfx_ne_of_matches hm
      exact ⟨x, Place.mem_root.2 (Or.inr ((h.others x hxp).2 ⟨hx, hdiff x hxbit hm⟩)), hxbit, hm, hsl⟩
  rw [hiff]
  constructor
  · exact .inl
  · rintro (h' | ⟨-, h1, h2, -⟩)
    · exact h'
    · exact absurd ⟨h1, h2⟩ hk

/-- A prefix of the family has entries for IPv6, or for IPv4. -/
def Family.covers : Family → Bool → Bool
  | .unspec, _ => true
  | .inet, is6 => !is6
  | .inet6, is6 => is6

/-- The entries that a prefix of a family is added for. -/
def entryFor (fam : Family) (n : ℤ) (pos is6 : Bool) : Option (ℤ × Bool) :=
  if fam.covers is6 then some (n, pos) else none

theorem setData_shape (fam : Family) (pos : Bool) (a : RadixNode) :
    (setData fam pos a).bit = a.bit ∧ (setData fam pos a).pfx = a.pfx := by
  cases fam <;> exact ⟨rfl, rfl⟩

theorem setData_num (fam : Family) (pos : Bool) (a : RadixNode) (is6 : Bool) :
    (setData fam pos a).num is6 = a.num is6 := by cases fam <;> rfl

theorem setData_data (fam : Family) (pos : Bool) (a : RadixNode) (is6 : Bool) : (setData fam pos a).data is6 =
    if fam.covers is6 then some ((a.data is6).getD pos) else a.data is6 := by
  cases fam <;> cases is6 <;> rfl

theorem newNode_num (radix : RadixTree) (fam : Family) (bit : ℕ) (q : Prefix) (is6 : Bool) :
    (newNode radix none fam bit q).1.num is6 = (if fam.covers is6 then radix.numAdded + 1 else -1) ∧
      (newNode radix none fam bit q).1.data is6 = none := by
  cases fam <;> cases is6 <;> exact ⟨rfl, rfl⟩

theorem renumber_none_num (radix : RadixTree) (fam : Family) (b : RadixNode) (is6 : Bool) :
    (renumber radix none fam b).1.num is6 =
        (if b.num is6 = -1 ∧ fam.covers is6 = true then (renumber radix none fam b).2 else b.num is6) ∧
      (renumber radix none fam b).1.data is6 = b.data is6 := by
  by_cases h4 : b.num4 = -1 <;> by_cases h6 : b.num6 = -1 <;> cases fam <;> cases is6 <;>
    simp [renumber, RadixNode.num, RadixNode.data, Family.covers, h4, h6]

theorem renumber_none_count (radix : RadixTree) (fam : Family) (b : RadixNode) (is6 : Bool) :
    radix.numAdded ≤ (renumber radix none fam b).2 ∧ (renumber radix none fam b).2 ≤ radix.numAdded + 1 ∧
      (b.num is6 = -1 ∧ fam.covers is6 = true → (renumber radix none fam b).2 = radix.numAdded + 1) := by
  by_cases h4 : b.num4 = -1 <;> by_cases h6 : b.num6 = -1 <;> cases fam <;> cases is6 <;>
    simp [renumber, RadixNode.num, Family.covers, h4, h6]

/-- Of each family a node has an ordinal and data, or neither. -/
theorem NumsOk.cases (h : NumsOk N a) (is6 : Bool) :
    a.num is6 = -1 ∧ a.data is6 = none ∨ ∃ v, a.num is6 ≠ -1 ∧ 1 ≤ a.num is6 ∧ a.data is6 = some v := by
  rcases h.family is6 with h' | ⟨h1, -, h3⟩
  · exact .inl h'
  · obtain ⟨v, hv⟩ := ne_none_iff_exists'.1 h3
    exact .inr ⟨v, by omega, h1, hv⟩

theorem setData_newNode_slot (h0 : 0 ≤ radix.numAdded) (fam : Family) (pos : Bool) (bit : ℕ)
    (q : Prefix) (is6 : Bool) : (setData fam pos (newNode radix none fam bit q).1).slot is6 =
      entryFor fam (radix.numAdded + 1) pos is6 := by
  have hne : radix.numAdded + 1 ≠ -1 := by omega
  obtain ⟨hnum, hdata⟩ := newNode_num radix fam bit q is6
  cases hc : fam.covers is6 <;> simp [RadixNode.slot, setData_num, setData_data, hnum, hdata, entryFor, hc, hne]

theorem setData_renumber_slot (h0 : 0 ≤ radix.numAdded) (fam : Family) (pos : Bool) (hb : NumsOk radix.numAdded b) (is6 : Bool) :
    (setData fam pos (renumber radix none fam b).1).slot is6 =
      (b.slot is6).or (entryFor fam (radix.numAdded + 1) pos is6) := by
  have hne : radix.numAdded + 1 ≠ -1 := by omega
  obtain ⟨hnum, hdata⟩ := renumber_none_num radix fam b is6
  obtain ⟨-, -, hcount⟩ := renumber_none_count radix fam b is6
  rcases hb.cases is6 with ⟨hn, hd⟩ | ⟨v, hn, -, hd⟩
  · cases hc : fam.covers is6 with
    | false => simp [RadixNode.slot, setData_num, hnum, hn, entryFor, hc]
    | true =>
      simp [RadixNode.slot, setData_num, setData_data, hnum, hdata, hcount ⟨hn, hc⟩, hn, hd, entryFor, hc, hne]
  · cases hc : fam.covers is6 <;> simp [RadixNode.slot, setData_num, setData_data, hnum, hdata, hn, hd, hc]

theorem Prefix.Legal.short (h : p.Legal) (hc : p.family.covers false = true) : p.bitlen ≤ 32 := by
  obtain ⟨-, h⟩ | ⟨hf, -⟩ | ⟨-, h⟩ := h
  · exact h
  · rw [hf] at hc
    cases hc
  · omega

theorem setData_newNode_ok (h0 : 0 ≤ radix.numAdded) (hp : p.Legal) (pos : Bool)
    (q : Prefix) : NumsOk (radix.numAdded + 1) (setData p.family pos (newNode radix none p.family p.bitlen q).1) := by
  refine ⟨fun is6 => ?_, fun h4 => ?_⟩
  · obtain ⟨hnum, hdata⟩ := newNode_num radix p.family p.bitlen q is6
    rw [setData_num, setData_data, hnum, hdata]
    cases hc : p.family.covers is6 with
    | false => simp
    | true =>
      rw [if_pos rfl]
      exact .inr ⟨by omega, le_rfl, by simp⟩
  · rw [(setData_shape _ _ _).1, (newNode_shape _ _ _ _ _).1]
    apply hp.short
    cases hc : p.family.covers false with
    | true => rfl
    | false =>
      have hnum := (newNode_num radix p.family p.bitlen q false).1
      rw [← setData_num p.family pos, hc] at hnum
      exact absurd hnum h4

theorem setData_renumber_ok (h0 : 0 ≤ radix.numAdded)
    (hp : p.Legal) (pos : Bool) (hb : NumsOk radix.numAdded b) (hbit : b.bit = p.bitlen) :
    NumsOk (renumber radix none p.family b).2 (setData p.family pos (renumber radix none p.family b).1) := by
  refine ⟨fun is6 => ?_, fun h4 => ?_⟩
  · obtain ⟨hnum, hdata⟩ := renumber_none_num radix p.family b is6
    obtain ⟨hle, -, hcount⟩ := renumber_none_count radix p.family b is6
    rw [setData_num, setData_data, hnum, hdata]
    by_cases hnew : b.num is6 = -1 ∧ p.family.covers is6 = true
    · rw [if_pos hnew, if_pos hnew.2, hcount hnew]
      exact .inr ⟨by omega, le_rfl, by simp⟩
    rw [if_neg hnew]
    rcases hb.family is6 with ⟨hn, hd⟩ | ⟨h1, h2, h3⟩
    · have hc : p.family.covers is6 = false := by simpa [hn] using hnew
      exact .inl ⟨hn, by simp [hc, hd]⟩
    refine .inr ⟨h1, by omega, ?_⟩
    split
    · simp
    · exact h3
  · rw [(setData_shape _ _ _).1, (renumber_shape _ _ _ _).1, hbit]
    have hnum := (renumber_none_num radix p.family b false).1
    rw [← setData_num p.family pos] at hnum
    by_cases hnew : b.num false = -1 ∧ p.family.covers false = true
    · exact hp.short hnew.2
    rw [if_neg hnew] at hnum
    rw [← hbit]
    exact hb.short (fun h => h4 (hnum.trans h))

/-- The node that a merged node becomes in the destination. -/
def settle (pos : Bool) (source a : RadixNode) : RadixNode := if pos then a else negateFrom source a

/-- The entries that a merged node brings along. -/
def carried (N : ℤ) (pos : Bool) (source : RadixNode) (is6 : Bool) : Option (ℤ × Bool) :=
  (source.slot is6).map (fun e => (N + e.1, pos && e.2))

/-- Nothing goes wrong when a node is merged into one that the destination has for its prefix: the
ordinals of the source are all or none where one for IPv6 is missing, and a negated source has no
positive entry that is positive here too. -/
structure Meets (pos : Bool) (a source : RadixNode) : Prop where
  families : a.num6 = -1 → (source.num4 = -1 ↔ source.num6 = -1)
  signs : pos = false → ∀ is6, ¬ (a.data is6 = some true ∧ source.data is6 = some true)

theorem renumber_num (radix : RadixTree) (s b : RadixNode) (fam : Family) (is6 : Bool) :
    (renumber radix (some s) fam b).1.num is6 =
      if b.num is6 = -1 ∧ s.num4 ≠ -1 then radix.numAdded + s.num is6 else b.num is6 := by
  unfold renumber
  by_cases hs : s.num4 = -1 <;> by_cases h4 : b.num4 = -1 <;> by_cases h6 : b.num6 = -1 <;> cases is6 <;>
    simp [RadixNode.num, hs, h4, h6]

theorem renumber_data (radix : RadixTree) (s b : RadixNode) (fam : Family) (is6 : Bool) :
    (renumber radix (some s) fam b).1.data is6 = if b.num is6 = -1 ∧ s.num4 ≠ -1 then s.data is6 else b.data is6 := by
  unfold renumber
  by_cases hs : s.num4 = -1 <;> by_cases h4 : b.num4 = -1 <;> by_cases h6 : b.num6 = -1 <;> cases is6 <;>
    simp [RadixNode.num, RadixNode.data, hs, h4, h6]

theorem settle_num (pos : Bool) (s a : RadixNode) (is6 : Bool) : (settle pos s a).num is6 = a.num is6 := by
  unfold settle negateFrom
  split <;> rfl

theorem settle_data (pos : Bool) (s a : RadixNode) (is6 : Bool) : (settle pos s a).data is6 =
    if pos then a.data is6 else if s.data is6 = some true then some false else a.data is6 := by
  unfold settle negateFrom
  cases pos <;> cases is6 <;> rfl

theorem settle_newNode_slot (h0 : 0 ≤ radix.numAdded)
    (hs : NumsOk M s) (fam : Family) (pos : Bool) (bit : ℕ) (q : Prefix) (is6 : Bool) :
    (settle pos s (newNode radix (some s) fam bit q).1).slot is6 = carried radix.numAdded pos s is6 := by
  have hnum : (newNode radix (some s) fam bit q).1.num is6 = rebase radix.numAdded (s.num is6) := by
    cases is6 <;> rfl
  have hdata : (newNode radix (some s) fam bit q).1.data is6 = s.data is6 := by cases is6 <;> rfl
  rcases hs.cases is6 with ⟨hn, hd⟩ | ⟨v, hn, hp, hd⟩
  · simp [carried, RadixNode.slot, settle_num, hnum, rebase, hn]
  have hne : radix.numAdded + s.num is6 ≠ -1 := by omega
  cases pos <;> cases v <;>
    simp [carried, RadixNode.slot, settle_num, settle_data, hnum, hdata, rebase, hn, hd, hne]

variable {pos : Bool}

theorem settle_renumber_slot (h0 : 0 ≤ radix.numAdded) (hb : NumsOk K b) (hs : NumsOk M s) (fam : Family) (hm : Meets pos b s)
    (is6 : Bool) : (settle pos s (renumber radix (some s) fam b).1).slot is6 =
      (b.slot is6).or (carried radix.numAdded pos s is6) := by
  have hfam : b.num is6 = -1 → (s.num4 = -1 ↔ s.num is6 = -1) := by
    cases is6 with
    | false => exact fun _ => Iff.rfl
    | true => exact hm.families
  rcases hb.cases is6 with ⟨hn, hd⟩ | ⟨v, hn, -, hd⟩
  · rcases hs.cases is6 with ⟨hsn, hsd⟩ | ⟨w, hsn, hsp, hsd⟩
    · simp [carried, RadixNode.slot, settle_num, renumber_num, hfam hn, hn, hsn]
    · have hne : radix.numAdded + s.num is6 ≠ -1 := by omega
      cases pos <;> cases w <;>
        simp [carried, RadixNode.slot, settle_num, settle_data, renumber_num, renumber_data, hfam hn, hn, hsn, hsd, hne]
  have hkeep : pos = false → s.data is6 = some true → v = false := by
    intro hpos hsd
    cases v with
    | false => rfl
    | true => exact absurd ⟨hd, hsd⟩ (hm.signs hpos is6)
  simpa [RadixNode.slot, settle_num, settle_data, renumber_num, renumber_data, hn, hd] using hkeep

theorem settle_shape (pos : Bool) (s a : RadixNode) : (settle pos s a).bit = a.bit ∧ (settle pos s a).pfx = a.pfx := by
  unfold settle negateFrom
  split <;> exact ⟨rfl, rfl⟩

theorem settle_newNode_ok (h0 : 0 ≤ radix.numAdded)
    (hs : NumsOk M s) (hK : radix.numAdded + M ≤ K) (fam : Family) (pos : Bool) (q : Prefix) :
    NumsOk K (settle pos s (newNode radix (some s) fam s.bit q).1) := by
  have hnum : ∀ is6, (newNode radix (some s) fam s.bit q).1.num is6 = rebase radix.numAdded (s.num is6) := by
    intro is6
    cases is6 <;> rfl
  have hdata : ∀ is6, (newNode radix (some s) fam s.bit q).1.data is6 = s.data is6 := by
    intro is6
    cases is6 <;> rfl
  refine ⟨fun is6 => ?_, fun h4 => ?_⟩
  · rw [settle_num, settle_data, hnum, hdata]
    unfold rebase
    rcases hs.family is6 with ⟨hn, hd⟩ | ⟨h1, h2, h3⟩
    · exact .inl ⟨by simp [hn], by simp [hd]⟩
    rw [if_pos (by omega)]
    refine .inr ⟨by omega, by omega, ?_⟩
    split
    · exact h3
    split
    · simp
    · exact h3
  · rw [(settle_shape _ _ _).1, (newNode_shape _ _ _ _ _).1]
    apply hs.short
    intro hn
    have := hnum false
    rw [← settle_num pos s] at this
    exact h4 (this.trans (by simp [rebase, RadixNode.num, hn]))

theorem settle_renumber_ok (h0 : 0 ≤ radix.numAdded)
    (hb : NumsOk K b) (hs : NumsOk M s) (hK : radix.numAdded + M ≤ K) (fam : Family)
    (hm : Meets pos b s) (hbit : b.bit = s.bit) : NumsOk K (settle pos s (renumber radix (some s) fam b).1) := by
  have hfam : ∀ is6, b.num is6 = -1 → (s.num4 = -1 ↔ s.num is6 = -1) := by
    intro is6
    cases is6 with
    | false => exact fun _ => Iff.rfl
    | true => exact hm.families
  refine ⟨fun is6 => ?_, fun h4 => ?_⟩
  · rw [settle_num, settle_data, renumber_num, renumber_data]
    rcases hb.family is6 with ⟨hn, hd⟩ | ⟨h1, h2, h3⟩
    · rcases hs.family is6 with ⟨hsn, hsd⟩ | ⟨h1, h2, h3⟩
      · exact .inl ⟨by simp [hfam is6 hn, hn, hsn], by simp [hd, hsd]⟩
      · have hnew : b.num is6 = -1 ∧ s.num4 ≠ -1 := by
          refine ⟨hn, fun h => ?_⟩
          rw [hfam is6 hn] at h
          omega
        rw [if_pos hnew, if_pos hnew]
        refine .inr ⟨by omega, by omega, ?_⟩
        split
        · exact h3
        split
        · simp
        · exact h3
    have hold : ¬ (b.num is6 = -1 ∧ s.num4 ≠ -1) := by omega
    rw [if_neg hold, if_neg hold]
    refine .inr ⟨h1, h2, ?_⟩
    split
    · exact h3
    split
    · simp
    · exact h3
  · rw [(settle_shape _ _ _).1, (renumber_shape _ _ _ _).1]
    have hnum := renumber_num radix s b fam false
    rw [← settle_num pos s] at hnum
    by_cases hnew : b.num false = -1 ∧ s.num4 ≠ -1
    · rw [hbit]
      exact hs.short hnew.2
    · rw [if_neg hnew] at hnum
      exact hb.short (fun h => h4 (hnum.trans h))

/-! ### Adding a prefix -/

theorem toPrefix_ok {na : Option NetAddr} (h : (toPrefix na bitlen).Legal) :
    (toPrefix na bitlen).Ok ∧ (toPrefix na bitlen).add.length = 16 := by
  have hlen : (toPrefix na bitlen).add.length = 16 := by
    obtain _ | a := na
    · rfl
    have hbytes : (a.bytes.take ((bitlen + 7) / 8)).length ≤ 16 := by
      rw [length_take]
      cases a <;> simp [NetAddr.bytes]
    simp only [toPrefix, List.length_append, length_replicate]
    omega
  refine ⟨⟨h, ?_⟩, hlen⟩
  rw [hlen]
  obtain ⟨-, h⟩ | ⟨-, h⟩ | ⟨-, h⟩ := h <;> omega

/-- A tree with its ordinals. -/
structure TableOk (radix : RadixTree) : Prop where
  struct : Struct radix.head
  count : 0 ≤ radix.numAdded
  nums : ∀ a ∈ radix.head.labels, NumsOk radix.numAdded a

theorem TableOk.grow (h : TableOk radix) (hN : radix.numAdded ≤ N) :
    TableOk { radix with numAdded := N } :=
  ⟨h.struct, h.count.trans hN, fun x hx => (h.nums x hx).mono hN⟩

theorem Inserted.of_mem {x : RadixNode}
    (h : Inserted t p place) (hx : x ∈ (Place.root { place with node := a }).labels) :
    x = a ∨ x.pfx = none ∧ place.Other x ∨ x ∈ t.labels ∧ ¬ Same p x := by
  rcases Place.mem_root.1 hx with rfl | hx
  · exact .inl rfl
  by_cases hp : x.pfx = none
  · exact .inr (.inl ⟨hp, hx⟩)
  · exact .inr (.inr ((h.others x hp).1 hx))

theorem numsOk_of_glue (ha : NodeOk a) (h : a.pfx = none) : NumsOk N a := by
  obtain ⟨h4, h6, d4, d6⟩ := ha.glue h
  refine ⟨fun is6 => Or.inl ?_, fun hne => absurd h4 hne⟩
  cases is6 with
  | false => exact ⟨h4, d4⟩
  | true => exact ⟨h6, d6⟩

theorem Inserted.numsOk
    (h : Inserted t p place) (ha : NumsOk N a) (hn : ∀ x ∈ t.labels, NumsOk N x) :
    ∀ x ∈ (Place.root { place with node := a }).labels, NumsOk N x := by
  intro x hx
  rcases h.of_mem hx with rfl | ⟨hnone, hother⟩ | ⟨hx, -⟩
  · exact ha
  · have hmem : x ∈ place.root.labels := Place.mem_root.2 (Or.inr hother)
    exact numsOk_of_glue ((h.struct (fun _ => false)).nodes x hmem) hnone
  · exact hn x hx

theorem Inserted.setNode
    (h : Inserted t p place) (hbit : a.bit = place.node.bit) (hpfx : a.pfx = place.node.pfx) :
    Struct (Place.root { place with node := a }) := by
  have hnode : NodeOk place.node := (h.struct (fun _ => false)).nodes _ (Place.mem_root.2 (Or.inl rfl))
  refine h.struct.setNode hbit hpfx ⟨hbit ▸ hnode.bit_le, ?_, fun hnone => ?_⟩
  · rw [hbit, hpfx]
    exact hnode.pfx
  · exact absurd (hpfx ▸ hnone) h.same.pfx_ne

theorem setData_made (h : TableOk radix) (hp : p.Legal) (pos : Bool) {num : ℤ} (hmade : Made radix none p a num) :
    NumsOk num (setData p.family pos a) ∧ (radix.numAdded ≤ num ∧ num ≤ radix.numAdded + 1) ∧
      SlotFrom radix.head p (entryFor p.family (radix.numAdded + 1) pos) (setData p.family pos a) := by
  rcases hmade with ⟨b, hb, hsame, heq⟩ | ⟨hno, q, heq⟩
  · obtain ⟨rfl, rfl⟩ := Prod.ext_iff.1 heq
    refine ⟨setData_renumber_ok h.count hp pos (h.nums b hb) hsame.1, ?_, Or.inl ⟨b, hb, hsame, fun is6 => ?_⟩⟩
    · obtain ⟨h1, h2, -⟩ := renumber_none_count radix p.family b false
      exact ⟨h1, h2⟩
    · exact setData_renumber_slot h.count p.family pos (h.nums b hb) is6
  obtain ⟨rfl, rfl⟩ := Prod.ext_iff.1 heq
  have hnum : (newNode radix none p.family p.bitlen q).2 = radix.numAdded + 1 := rfl
  rw [hnum]
  refine ⟨setData_newNode_ok h.count hp pos q, by omega, Or.inr ⟨hno, fun is6 => ?_⟩⟩
  exact setData_newNode_slot h.count p.family pos p.bitlen q is6

theorem iptableAddPrefix_spec (sur : Surroundings) (h : TableOk radix) {na : Option NetAddr} (hp : (toPrefix na bitlen).Legal) (pos : Bool) :
    iptableAddPrefix sur radix na bitlen pos = some (.nomemory, radix) ∨
      ∃ radix', iptableAddPrefix sur radix na bitlen pos = some (.success, radix') ∧ TableOk radix' ∧
        radix.numAdded ≤ radix'.numAdded ∧ radix'.numAdded ≤ radix.numAdded + 1 ∧
        Updated radix.head radix'.head (toPrefix na bitlen)
          (entryFor (toPrefix na bitlen).family (radix.numAdded + 1) pos) := by
  obtain ⟨hok, -⟩ := toPrefix_ok hp
  have hsource : SourceOk none := fun s hs => by cases hs
  rcases insert_spec sur radix hok hsource h.struct with hins | ⟨place, num, active, hins, hplace, hmade, -⟩
  · exact .inl (by simp only [iptableAddPrefix, hins])
  obtain ⟨hbit, hpfx⟩ := setData_shape (toPrefix na bitlen).family pos place.node
  obtain ⟨hnums, ⟨hle, hle'⟩, hslot⟩ := setData_made h hp pos hmade
  refine .inr ⟨⟨Place.root { place with node := setData (toPrefix na bitlen).family pos place.node }, num, active⟩,
    by simp only [iptableAddPrefix, hins], ⟨hplace.setNode hbit hpfx, h.count.trans hle, ?_⟩, hle, hle', ?_⟩
  · exact hplace.numsOk hnums (fun x hx => (h.nums x hx).mono hle)
  · exact hplace.updated h.struct hbit hpfx hslot

/-! ### Merging -/

theorem settle_made (radix : RadixTree) (h0 : 0 ≤ radix.numAdded)
    (hnums : ∀ a ∈ radix.head.labels, NumsOk K a) (hs : NumsOk M s) (hK : radix.numAdded + M ≤ K) (hbit : p.bitlen = s.bit)
    (hmeets : ∀ b ∈ radix.head.labels, Same p b → Meets pos b s) {num : ℤ} (hmade : Made radix (some s) p a num) :
    num = radix.numAdded ∧ NumsOk K (settle pos s a) ∧
      SlotFrom radix.head p (carried radix.numAdded pos s) (settle pos s a) := by
  rcases hmade with ⟨b, hb, hsame, heq⟩ | ⟨hno, q, heq⟩
  · obtain ⟨rfl, rfl⟩ := Prod.ext_iff.1 heq
    have hm := hmeets b hb hsame
    refine ⟨rfl, settle_renumber_ok h0 (hnums b hb) hs hK p.family hm (hsame.1.trans hbit), ?_⟩
    exact .inl ⟨b, hb, hsame, settle_renumber_slot h0 (hnums b hb) hs p.family hm⟩
  rw [hbit] at heq
  obtain ⟨rfl, rfl⟩ := Prod.ext_iff.1 heq
  refine ⟨rfl, settle_newNode_ok h0 hs hK p.family pos q, Or.inr ⟨hno, ?_⟩⟩
  exact settle_newNode_slot h0 hs p.family pos s.bit q

/-- The entries that the nodes of a list bring along for the first `len` bits of `k`. -/
def Brings (N : ℤ) (pos : Bool) (nodes : List RadixNode) (is6 : Bool) (len : ℕ) (k : Bits) (n : ℤ) (v : Bool) :
    Prop :=
  ∃ s ∈ nodes, s.bit = len ∧ Matches RadixNode.bit key k s ∧ carried N pos s is6 = some (n, v)

/-- Two nodes belong to different prefixes. -/
def Apart (a b : RadixNode) : Prop :=
  a.bit = b.bit → ∀ k, Matches RadixNode.bit key k a → ¬ Matches RadixNode.bit key k b

theorem NumsOk.data_none (h : NumsOk N a) (is6 : Bool) (hn : a.num is6 = -1) : a.data is6 = none := by
  rcases h.family is6 with ⟨-, hd⟩ | ⟨h1, -⟩
  · exact hd
  · omega

structure Mergeable (M : ℤ) (pos : Bool) (nodes : List RadixNode) (t : BitTree RadixNode) : Prop where
  each : ∀ s ∈ nodes, NodeOk s ∧ NumsOk M s
  apart : nodes.Pairwise Apart
  meets : ∀ s ∈ nodes, ∀ p ∈ s.pfx, ∀ b ∈ t.labels, Same p b → Meets pos b s

theorem matches_iff (hs : NodeOk s) (hp : s.pfx = some p) {len : ℕ} :
    (s.bit = len ∧ Matches RadixNode.bit key k s) ↔ len = p.bitlen ∧ Agree len (toBits p.add) k := by
  obtain ⟨-, hlen, -⟩ := hs.pfx p hp
  have hkey : key s = some (toBits p.add) := by
    rw [key, hp]
    rfl
  constructor
  · rintro ⟨rfl, k', hk', hagree⟩
    rw [hkey] at hk'
    cases hk'
    exact ⟨hlen.symm, hagree⟩
  · rintro ⟨rfl, hagree⟩
    refine ⟨hlen.symm, toBits p.add, hkey, ?_⟩
    rw [← hlen]
    exact hagree

theorem Mergeable.rest {rest : List RadixNode} (hm : Mergeable M pos (s :: rest) t)
    (hp : s.pfx = some p)
    (hplace : Inserted t p place) :
    Mergeable M pos rest (Place.root { place with node := settle pos s place.node }) := by
  obtain ⟨⟨hsn, -⟩, hrest⟩ := forall_mem_cons.1 hm.each
  obtain ⟨hsapart, hrapart⟩ := pairwise_cons.1 hm.apart
  refine ⟨hrest, hrapart, fun s' hs' p' hp' b hb hsame => ?_⟩
  rcases hplace.of_mem hb with rfl | ⟨hnone, -⟩ | ⟨hb, -⟩
  · obtain ⟨hbit, hpfx⟩ := settle_shape pos s place.node
    obtain ⟨hb1, k, hk, hagree⟩ := hplace.same
    obtain ⟨hb2, k', hk', hagree'⟩ := hsame
    rw [key, hpfx] at hk'
    obtain rfl : k = k' := Option.some.inj (hk.symm.trans hk')
    rw [hbit] at hb2 hagree'
    have hsk : s.bit = p.bitlen ∧ Matches RadixNode.bit key k s :=
      (matches_iff hsn hp).2 ⟨rfl, hb1 ▸ hagree.symm⟩
    have hsk' : s'.bit = p'.bitlen ∧ Matches RadixNode.bit key k s' :=
      (matches_iff (hrest s' hs').1 hp').2 ⟨rfl, hb2 ▸ hagree'.symm⟩
    exact absurd hsk'.2 (hsapart s' hs' (by omega) k hsk.2)
  · exact absurd hnone hsame.pfx_ne
  · exact hm.meets s' (mem_cons_of_mem _ hs') p' hp' b hb hsame

theorem mergeNodes_spec (h0 : 0 ≤ N) (hK : N + M ≤ K) (sur : ℕ → Surroundings) (pos : Bool) :
    ∀ (nodes : List RadixNode) (i : ℕ) (t : BitTree RadixNode) (active : ℤ), Struct t → (∀ a ∈ t.labels, NumsOk K a) →
      Mergeable M pos nodes t →
      (∃ radix, mergeNodes sur pos nodes i ⟨t, N, active⟩ = some (.nomemory, radix)) ∨
        ∃ t' active', mergeNodes sur pos nodes i ⟨t, N, active⟩ = some (.success, ⟨t', N, active'⟩) ∧ Struct t' ∧
          (∀ a ∈ t'.labels, NumsOk K a) ∧
          ∀ is6 len k n v, At t' is6 len k n v ↔ At t is6 len k n v ∨
            (∀ n' v', ¬ At t is6 len k n' v') ∧ Brings N pos nodes is6 len k n v
  | [], i, t, active, ht, hn, _ => by
    refine .inr ⟨t, active, rfl, ht, hn, fun is6 len k n v => ?_⟩
    simp [Brings]
  | s :: rest, i, t, active, ht, hn, hm => by
    obtain ⟨⟨hsn, hsm⟩, hrest⟩ := forall_mem_cons.1 hm.each
    obtain ⟨hsapart, hrapart⟩ := pairwise_cons.1 hm.apart
    obtain ⟨hsmeets, hrmeets⟩ := forall_mem_cons.1 hm.meets
    have hbrings : ∀ is6 len k n v, Brings N pos (s :: rest) is6 len k n v ↔
        (s.bit = len ∧ Matches RadixNode.bit key k s ∧ carried N pos s is6 = some (n, v)) ∨
          Brings N pos rest is6 len k n v := by
      intro is6 len k n v
      exact exists_mem_cons_iff ..
    rw [mergeNodes]
    cases hp : s.pfx with
    | none =>
      have hno : ∀ k, ¬ Matches RadixNode.bit key k s := fun k h => pfx_ne_of_matches h hp
      simp only [hbrings, hno, false_and, and_false, false_or]
      exact mergeNodes_spec h0 hK sur pos rest i t active ht hn ⟨hrest, hrapart, hrmeets⟩
    | some p =>
      obtain ⟨hlegal, hlen, hadd⟩ := hsn.pfx p hp
      have hsource : SourceOk (some s) := by
        rintro x ⟨⟩
        exact ⟨hsm.data_none false, hsm.data_none true⟩
      rcases insert_spec (sur i) ⟨t, N, active⟩ ⟨hlegal, hlen ▸ hadd⟩ hsource ht with
        hins | ⟨place, num, active', hins, hplace, hmade, -⟩
      · exact .inl ⟨_, by simp only [hins]; rfl⟩
      obtain ⟨hnum, hnums, hslot⟩ := settle_made ⟨t, N, active⟩ h0 hn hsm hK hlen (hsmeets p hp) hmade
      rw [hnum] at hins
      obtain ⟨hbit, hpfx⟩ := settle_shape pos s place.node
      have hupd := hplace.updated ht hbit hpfx hslot
      have hroot : (if pos then place else { place with node := negateFrom s place.node }).root =
          Place.root { place with node := settle pos s place.node } := by
        cases pos <;> rfl
      simp only [hins, hroot]
      have ih := mergeNodes_spec h0 hK sur pos rest (i + 1) _ active' (hplace.setNode hbit hpfx)
        (hplace.numsOk hnums hn) (hm.rest hp hplace)
      refine ih.imp_right ?_
      rintro ⟨t', active'', hmerge, ht', hn', hat⟩
      refine ⟨t', active'', hmerge, ht', hn', fun is6 len k n v => ?_⟩
      have hone : ∀ n v, At (Place.root { place with node := settle pos s place.node }) is6 len k n v ↔
          At t is6 len k n v ∨ (∀ n' v', ¬ At t is6 len k n' v') ∧
            s.bit = len ∧ Matches RadixNode.bit key k s ∧ carried N pos s is6 = some (n, v) := by
        intro n v
        rw [hupd is6 len k n v, ← and_assoc (a := s.bit = len), matches_iff hsn hp, and_assoc]
      rw [hat, hbrings]
      simp only [hone]
      constructor
      · rintro ((h | ⟨hno, hs⟩) | ⟨hno, hr⟩)
        · exact .inl h
        · exact .inr ⟨hno, Or.inl hs⟩
        · exact .inr ⟨fun n' v' h => hno n' v' (Or.inl h), Or.inr hr⟩
      · rintro (h | ⟨hno, hs | hr⟩)
        · exact .inl (.inl h)
        · exact .inl (.inr ⟨hno, hs⟩)
        · obtain ⟨s', hs', hlen', hmatch', hcarried'⟩ := hr
          refine .inr ⟨?_, s', hs', hlen', hmatch', hcarried'⟩
          rintro n' v' (h | ⟨-, hlen, hmatch, -⟩)
          · exact hno n' v' h
          · exact hsapart s' hs' (hlen.trans hlen'.symm) k hmatch hmatch'

theorem le_maxNode : ∀ (nodes : List RadixNode) (m : ℤ),
    m ≤ nodes.foldl (fun m a => max (max m a.num4) a.num6) m ∧
      ∀ a ∈ nodes, ∀ is6, a.num is6 ≤ nodes.foldl (fun m a => max (max m a.num4) a.num6) m
  | [], m => ⟨le_rfl, by simp⟩
  | b :: rest, m => by
    obtain ⟨h1, h2⟩ := le_maxNode rest (max (max m b.num4) b.num6)
    rw [foldl_cons]
    refine ⟨le_trans (by omega) h1, fun a ha is6 => ?_⟩
    rcases mem_cons.1 ha with rfl | ha
    · refine le_trans ?_ h1
      cases is6 with
      | false => exact le_trans (le_max_right _ _) (le_max_left _ _)
      | true => exact le_max_right _ _
    · exact h2 a ha is6

theorem maxNode_spec (nodes : List RadixNode) :
    0 ≤ maxNode nodes ∧ ∀ a ∈ nodes, ∀ is6, a.num is6 ≤ maxNode nodes := le_maxNode nodes 0

theorem maxNode_le {B : ℤ} : ∀ (nodes : List RadixNode) (m : ℤ), m ≤ B → (∀ a ∈ nodes, ∀ is6, a.num is6 ≤ B) →
    nodes.foldl (fun m a => max (max m a.num4) a.num6) m ≤ B
  | [], m, hm, _ => hm
  | b :: rest, m, hm, h => by
    obtain ⟨hb, hrest⟩ := forall_mem_cons.1 h
    rw [foldl_cons]
    exact maxNode_le rest _ (max_le (max_le hm (hb false)) (hb true)) hrest

theorem NumsOk.num_le (h : NumsOk N a) (hN : 0 ≤ N) (is6 : Bool) : a.num is6 ≤ N := by
  rcases h.family is6 with ⟨h, -⟩ | ⟨-, h, -⟩ <;> omega

/-- Nothing goes wrong where the two tables have nodes for the same prefix. -/
def TablesMeet (pos : Bool) (tab source : RadixTree) : Prop :=
  ∀ s ∈ source.head.labels, ∀ p ∈ s.pfx, ∀ b ∈ tab.head.labels, Same p b → Meets pos b s

theorem iptableMerge_spec (sur : ℕ → Surroundings) {tab source : RadixTree} (ht : TableOk tab) (hs : TableOk source) (hm : TablesMeet pos tab source) :
    (∃ radix, iptableMerge sur tab source pos = some (.nomemory, radix)) ∨
      ∃ radix, iptableMerge sur tab source pos = some (.success, radix) ∧ TableOk radix ∧
        tab.numAdded ≤ radix.numAdded ∧ radix.numAdded ≤ tab.numAdded + source.numAdded ∧
        ∀ is6 len k n v, At radix.head is6 len k n v ↔ At tab.head is6 len k n v ∨ (∀ n' v', ¬ At tab.head is6 len k n' v') ∧
            ∃ m w, At source.head is6 len k m w ∧ n = tab.numAdded + m ∧ v = (pos && w) := by
  have h0 := ht.count
  have hs0 := hs.count
  have hsnodes := (hs.struct (fun _ => false)).nodes
  obtain ⟨hmax0, hmax⟩ := maxNode_spec (source.head.labels.filter (fun a => a.pfx.isSome))
  have hmaxle : maxNode (source.head.labels.filter (fun a => a.pfx.isSome)) ≤ source.numAdded :=
    maxNode_le _ 0 hs0 (fun a ha is6 => (hs.nums a (mem_filter.1 ha).1).num_le hs0 is6)
  generalize hM : maxNode (source.head.labels.filter (fun a => a.pfx.isSome)) = M at hmax0 hmax hmaxle
  have hbounded : ∀ s ∈ source.head.labels, NumsOk M s := by
    intro s hsl
    by_cases hp : s.pfx = none
    · exact numsOk_of_glue (hsnodes s hsl) hp
    refine ⟨fun is6 => ?_, (hs.nums s hsl).short⟩
    rcases (hs.nums s hsl).family is6 with h | ⟨h1, -, h3⟩
    · exact .inl h
    · exact .inr ⟨h1, hmax s (mem_filter.2 ⟨hsl, isSome_iff_ne_none.2 hp⟩) is6, h3⟩
  have hmerge := mergeNodes_spec h0 (le_refl (tab.numAdded + M)) sur pos source.head.labels 0 tab.head tab.numActive ht.struct
    (fun a ha => (ht.nums a ha).mono (by omega))
    ⟨fun s hsl => ⟨hsnodes s hsl, hbounded s hsl⟩, (hs.struct (fun _ => false)).fits.pairwise, hm⟩
  have htab : (⟨tab.head, tab.numAdded, tab.numActive⟩ : RadixTree) = tab := rfl
  rw [htab] at hmerge
  unfold iptableMerge
  rcases hmerge with ⟨radix, hmerge⟩ | ⟨t', active, hmerge, ht', hn', hat⟩
  · rw [hmerge]
    exact .inl ⟨radix, rfl⟩
  rw [hmerge, hM]
  refine .inr ⟨⟨t', tab.numAdded + M, active⟩, rfl, ⟨ht', by dsimp only; omega, hn'⟩, by dsimp only; omega,
    by dsimp only; omega, fun is6 len k n v => ?_⟩
  rw [hat]
  refine or_congr_right (and_congr_right fun _ => ?_)
  unfold Brings At carried
  constructor
  · rintro ⟨s, hsl, hlen, hmatch, hc⟩
    obtain ⟨⟨m, w⟩, hslot, he⟩ := map_eq_some_iff.1 hc
    obtain ⟨rfl, rfl⟩ := Prod.mk.inj he
    exact ⟨m, w, ⟨s, hsl, hlen, hmatch, hslot⟩, rfl, rfl⟩
  · rintro ⟨m, w, ⟨s, hsl, hlen, hmatch, hslot⟩, rfl, rfl⟩
    exact ⟨s, hsl, hlen, hmatch, by rw [hslot]; rfl⟩

end Bind9.Radix
