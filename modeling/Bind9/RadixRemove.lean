import Bind9.RadixSearch

/-! # Removing from a radix tree

`isc_radix_remove` of `lib/isc/radix.c`.  A node with two children stays in the tree without its prefix, and keeps its ordinals; an
insertion of its prefix then fails an `INSIST`.  Everything else in the tree is as if the prefix had never been there: with the
ordinals of such nodes erased (`erase`), insertions and searches are those of a tree in which nothing is stale.  Any other node is
freed before the links of its parent are compared with it, and `isc_mem_put` sets the pointer to it to NULL: such a removal ends in
a failing `INSIST` or leaves the parent with a pointer to freed memory. -/

namespace Bind9.Radix

open Patricia
open List
open Function
open Option hiding mem_map mem_map_of_mem

/-- How `isc_radix_remove` ends: with a tree, with a failing `INSIST`, or with a tree that has a pointer to freed memory. -/
inductive Removal where
  | done (radix : RadixTree)
  | insist
  | dangling
deriving DecidableEq, Repr

/-- `isc_radix_remove` of the node at a place. -/
def remove (radix : RadixTree) (place : Place) : Removal :=
  if place.right ≠ .nil ∧ place.left ≠ .nil then
    .done { radix with
      head := Place.root { place with node := { place.node with pfx := none, data4 := none, data6 := none } } }
  else
    -- behind `isc_mem_put` the variable `node` is NULL; `child` is a link of the parent, or the only child
    match place.path with
    | [] => .insist
    | f :: _ =>
      let null (right : Bool) : Prop := f.right ≠ right ∧ f.other = .nil
      if null true then .dangling
      else if null false then .dangling
      else .insist

theorem remove_done_iff {radix : RadixTree} {place : Place} :
    (∃ radix', remove radix place = .done radix') ↔ place.right ≠ .nil ∧ place.left ≠ .nil := by
  unfold remove
  by_cases htwo : place.right ≠ .nil ∧ place.left ≠ .nil
  · rw [if_pos htwo]
    exact ⟨fun _ => htwo, fun _ => ⟨_, rfl⟩⟩
  rw [if_neg htwo]
  refine ⟨fun ⟨radix', h⟩ => ?_, fun h => absurd h htwo⟩
  cases hpath : place.path with
  | nil =>
    rw [hpath] at h
    cases h
  | cons f path =>
    rw [hpath] at h
    simp only at h
    split at h
    · cases h
    split at h
    · cases h
    · cases h

def RadixNode.clean (a : RadixNode) : RadixNode := if a.pfx = none then { a with num4 := -1, num6 := -1 } else a

/-- The tree without the ordinals of nodes that have no prefix. -/
def erase (radix : RadixTree) : RadixTree := { radix with head := radix.head.map RadixNode.clean }

@[simp] theorem clean_bit (a : RadixNode) : a.clean.bit = a.bit := by
  unfold RadixNode.clean
  split <;> rfl

@[simp] theorem clean_pfx (a : RadixNode) : a.clean.pfx = a.pfx := by
  unfold RadixNode.clean
  split <;> rfl

theorem clean_of_pfx {a : RadixNode} (h : a.pfx ≠ none) : a.clean = a := if_neg h

@[simp] theorem key_clean (a : RadixNode) : key a.clean = key a := by
  unfold key
  rw [clean_pfx]

/-! ### Removing a node of a clean tree -/

section removal

variable {place : Place} {radix : RadixTree} {log : List Prefix}

def Place.cleared (p : Place) : Place := { p with node := ⟨p.node.bit, none, -1, -1, none, none⟩ }

/-- A node without its prefix, between two children. -/
theorem struct_cleared (hs : Struct place.root) (hright : place.right ≠ .nil) (hleft : place.left ≠ .nil) :
    Struct place.cleared.root := by
  obtain ⟨c, n, hp, ht⟩ := hs.unplug (by simp)
  obtain ⟨hn, k, hck, -, hl, hr⟩ := ht.fits
  refine hp.plug ⟨⟨hn, k, hck, nofun, hl, hr⟩, ⟨fun _ => ⟨hleft, hright⟩, ht.forks.2⟩, fun x hx => ?_⟩ (by simp)
  obtain rfl | hx := BitTree.mem_labels_node.1 hx
  · exact ⟨(ht.nodes _ (BitTree.mem_labels_node.2 (Or.inl rfl))).bit_le, nofun, fun _ => ⟨rfl, rfl, rfl, rfl⟩⟩
  · exact ht.nodes x (BitTree.mem_labels_node.2 (Or.inr hx))

theorem mem_cleared {x : RadixNode} (hx : x.pfx ≠ none) : x ∈ place.cleared.root.labels ↔ place.Other x := by
  rw [Place.mem_root]
  refine ⟨fun h => h.elim (fun heq => absurd (by rw [heq]; rfl) hx) id, Or.inr⟩

open Classical in
noncomputable def without (log : List Prefix) (a : RadixNode) : List Prefix := log.filter (fun p => ¬ Same p a)

theorem mem_without {p : Prefix} {a : RadixNode} : p ∈ without log a ↔ p ∈ log ∧ ¬ Same p a := by
  classical
  unfold without
  rw [mem_filter, decide_eq_true_eq]

theorem Before.without {is6 : Bool} {a b c : RadixNode} (h : Before log is6 a b) (hother : ∀ q, Same q a → ¬ Same q c) :
    Before (without log c) is6 a b := by
  classical
  obtain ⟨before, p, after, rfl, hp, hno⟩ := h
  refine ⟨before.filter (fun p => ¬ Same p c), p, after.filter (fun p => ¬ Same p c), ?_, hp, fun q hq => hno q (mem_filter.1 hq).1⟩
  unfold Radix.without
  rw [filter_append, filter_cons_of_pos]
  exact decide_eq_true (hother p hp.2)

theorem Ordered.remove (ho : Ordered radix log) (hhead : place.root = radix.head) (hright : place.right ≠ .nil)
    (hleft : place.left ≠ .nil) : Ordered { radix with head := place.cleared.root } (without log place.node) := by
  have hs : Struct place.root := hhead ▸ ho.struct
  have hcleared := struct_cleared hs hright hleft
  have hmem : ∀ {x : RadixNode}, x ∈ radix.head.labels ↔ x = place.node ∨ place.Other x := by
    intro x
    rw [← hhead, Place.mem_root]
  -- a prefix of another node is not one of the removed node
  have hapart : ∀ {x : RadixNode} {q : Prefix}, place.Other x → Same q x → ¬ Same q place.node :=
    fun hx hq hn => hs.other_not_same hn hx hq
  have hcases : ∀ {x : RadixNode}, x ∈ place.cleared.root.labels → (place.Other x ∧ x ∈ radix.head.labels) ∨
      (∀ is6, x.num is6 = -1) ∧ ∀ q, ¬ Same q x := by
    intro x hx
    by_cases hpfx : x.pfx = none
    · obtain ⟨h4, h6, -⟩ := ((hcleared (fun _ => false)).nodes x hx).glue hpfx
      refine .inr ⟨fun is6 => ?_, fun q hq => hq.pfx_ne hpfx⟩
      cases is6 with
      | false => exact h4
      | true => exact h6
    · have hother := (mem_cleared hpfx).1 hx
      exact .inl ⟨hother, hmem.2 (Or.inr hother)⟩
  refine ⟨hcleared, ho.count, ?_, ?_, ?_, ?_, ?_, ?_⟩
  · intro x hx is6
    obtain ⟨-, hx⟩ | ⟨hnum, -⟩ := hcases hx
    · exact ho.bound x hx is6
    · exact .inl (hnum is6)
  · intro q hq
    exact ho.given q (mem_without.1 hq).1
  · intro q hq
    obtain ⟨hq, hno⟩ := mem_without.1 hq
    obtain ⟨x, hx, hsame⟩ := ho.present q hq
    obtain rfl | hother := hmem.1 hx
    · exact absurd hsame hno
    · exact ⟨x, (mem_cleared hsame.pfx_ne).2 hother, hsame⟩
  · intro x hx is6
    obtain ⟨hother, hx⟩ | ⟨hnum, hno⟩ := hcases hx
    · rw [ho.numbered x hx is6]
      refine exists_congr fun q => ?_
      rw [mem_without]
      exact ⟨fun h => ⟨⟨h.1, hapart hother h.2.2⟩, h.2⟩, fun h => ⟨h.1.1, h.2⟩⟩
    · rw [hnum is6]
      exact ⟨fun h => absurd rfl h, fun ⟨q, _, hg⟩ => absurd hg.2 (hno q)⟩
  · intro x hx y hy is6 hxne hyne hxy
    obtain ⟨hox, hx⟩ | ⟨hnum, -⟩ := hcases hx
    · obtain ⟨hoy, hy⟩ | ⟨hnum, -⟩ := hcases hy
      · refine (ho.before x hx y hy is6 hxne hyne hxy).imp (And.imp_right fun h => ?_) (And.imp_right fun h => ?_)
        · exact h.without fun q hq => hapart hox hq
        · exact h.without fun q hq => hapart hoy hq
      · exact absurd (hnum is6) hyne
    · exact absurd (hnum is6) hxne
  · have hcount : place.cleared.root.labels.length = place.root.labels.length := length_setNode place _
    show radix.numActive = (place.cleared.root.labels.length : ℤ)
    rw [hcount, hhead]
    exact ho.active

end removal

/-! ### Trees with stale ordinals -/

/-- A place in the tree without stale ordinals. -/
def Place.clean (p : Place) : Place :=
  ⟨p.path.map (Frame.map RadixNode.clean), p.node.clean, p.left.map RadixNode.clean, p.right.map RadixNode.clean⟩

theorem root_clean (p : Place) : p.clean.root = p.root.map RadixNode.clean := by
  unfold Place.root Place.clean
  rw [map_plug]
  rfl

section stale

variable {radix : RadixTree} {log : List Prefix}

theorem searchStack_clean (addr : List (BitVec 8)) (bitlen : ℕ) : ∀ t : BitTree RadixNode,
    searchStack addr bitlen (t.map RadixNode.clean) = searchStack addr bitlen t
  | .nil => rfl
  | .node a l r => by
    have hhere : (if a.clean.pfx.isSome then [a.clean] else []) = if a.pfx.isSome then [a] else [] := by
      rw [clean_pfx]
      split
      next hsome => rw [clean_of_pfx (isSome_iff_ne_none.1 hsome)]
      · rfl
    rw [BitTree.map, searchStack, searchStack, hhere, clean_bit, searchStack_clean addr bitlen l, searchStack_clean addr bitlen r]

theorem search_erase (radix : RadixTree) (h : Prefix) : search (erase radix) h = search radix h := by
  unfold search erase
  rw [searchStack_clean]

theorem fits_clean : ∀ (t : BitTree RadixNode) (c : Bits) (n : ℕ),
    Fits RadixNode.bit key c n (t.map RadixNode.clean) ↔ Fits RadixNode.bit key c n t
  | .nil, _, _ => Iff.rfl
  | .node a l r, c, n => by
    have hcar : ∀ k, Carries RadixNode.bit key a.clean k ↔ Carries RadixNode.bit key a k := by
      intro k
      unfold Carries
      rw [key_clean, clean_bit]
    simp only [BitTree.map, Fits, clean_bit, hcar, fits_clean l, fits_clean r]

theorem forks_clean : ∀ t : BitTree RadixNode, Forks (t.map RadixNode.clean) ↔ Forks t
  | .nil => Iff.rfl
  | .node a l r => by
    simp only [BitTree.map, Forks, clean_pfx, ne_eq, BitTree.map_eq_nil, forks_clean l, forks_clean r]
theorem IsPatricia.of_erase (h : IsPatricia (erase radix).head) : IsPatricia radix.head :=
  ⟨fun c => (fits_clean radix.head c 0).1 (h.1 c), (forks_clean radix.head).1 h.2⟩

theorem descend_clean (addr : List (BitVec 8)) (bitlen : ℕ) : ∀ (t : BitTree RadixNode) (path : List (Frame RadixNode))
    (above : Option Place), descend addr bitlen (t.map RadixNode.clean) (path.map (Frame.map RadixNode.clean)) (above.map Place.clean) =
      (descend addr bitlen t path above).map Place.clean
  | .nil, _, _ => rfl
  | .node a l r, path, above => by
    have hl := descend_clean addr bitlen l (⟨a, false, r⟩ :: path) (some ⟨path, a, l, r⟩)
    have hr := descend_clean addr bitlen r (⟨a, true, l⟩ :: path) (some ⟨path, a, l, r⟩)
    rw [BitTree.map, descend, descend]
    simp only [clean_bit, clean_pfx]
    split
    · split
      · exact hr
      · exact hl
    · rfl

theorem climb_clean (differ : ℕ) : ∀ (path : List (Frame RadixNode)) (a : RadixNode) (l r : BitTree RadixNode),
    climb differ (path.map (Frame.map RadixNode.clean)) a.clean (l.map RadixNode.clean) (r.map RadixNode.clean) =
      (climb differ path a l r).clean
  | [], _, _, _ => rfl
  | ⟨b, true, other⟩ :: path, a, l, r => by
    have ih := climb_clean differ path b other (.node a l r)
    rw [map_cons, climb, climb]
    simp only [Frame.map, clean_bit, if_true]
    split
    · exact ih
    · rfl
  | ⟨b, false, other⟩ :: path, a, l, r => by
    have ih := climb_clean differ path b (.node a l r) other
    rw [map_cons, climb, climb]
    simp only [Frame.map, clean_bit, Bool.false_eq_true, if_false]
    split
    · exact ih
    · rfl

/-- What an insertion returns, without stale ordinals. -/
def eraseAll (r : Result × RadixTree × Option Place) : Result × RadixTree × Option Place :=
  (r.1, erase r.2.1, r.2.2.map Place.clean)

theorem inserted_clean (place : Place) (num active : ℤ) : inserted place.clean num active = (inserted place num active).map eraseAll := by
  unfold inserted eraseAll erase
  rw [root_clean]
  rfl

theorem clean_setNode (place : Place) {n : RadixNode} (h : n.pfx ≠ none) :
    Place.clean { place with node := n } = { place.clean with node := n } := by
  unfold Place.clean
  simp only [clean_of_pfx h]

theorem insertAt_erase (sur : Surroundings) (radix : RadixTree) (p : Prefix) (test : List (BitVec 8)) (differ : ℕ) (place : Place)
    (h : differ = p.bitlen → place.node.bit = p.bitlen → place.node.pfx = none → place.node.num4 = -1 ∧ place.node.num6 = -1) :
    insertAt sur (erase radix) none p test differ place.clean = (insertAt sur radix none p test differ place).map eraseAll := by
  have hbit : place.clean.node.bit = place.node.bit := clean_bit place.node
  have hpfx : place.clean.node.pfx = place.node.pfx := clean_pfx place.node
  have hnew : ∀ q, newNode (erase radix) none p.family p.bitlen q = newNode radix none p.family p.bitlen q := fun _ => rfl
  have hnewpfx : ∀ q, (newNode radix none p.family p.bitlen q).1.pfx ≠ none := by
    intro q
    rw [(newNode_shape radix none p.family p.bitlen q).2]
    exact some_ne_none q
  have hnewclean : ∀ q, (newNode radix none p.family p.bitlen q).1.clean = (newNode radix none p.family p.bitlen q).1 :=
    fun q => clean_of_pfx (hnewpfx q)
  have hright' : place.clean.right = .nil ↔ place.right = .nil := BitTree.map_eq_nil _
  have hleft' : place.clean.left = .nil ↔ place.left = .nil := BitTree.map_eq_nil _
  unfold insertAt
  rw [hbit]
  by_cases hhere : differ = p.bitlen ∧ place.node.bit = p.bitlen
  · rw [if_pos hhere, if_pos hhere]
    cases hnode : place.node.pfx with
    | some q =>
      have hsame : place.clean.node = place.node := clean_of_pfx (by rw [hnode]; exact some_ne_none q)
      have hrenumber : (renumber radix none p.family place.node).1.pfx ≠ none := by
        rw [(renumber_shape radix none p.family place.node).2, hnode]
        exact some_ne_none q
      rw [hpfx, hnode]
      rw [← inserted_clean, clean_setNode _ hrenumber, hsame]
      rfl
    | none =>
      have hnums := h hhere.1 hhere.2 hnode
      have hsame : place.clean.node = place.node := by
        obtain ⟨path, ⟨bit, pfx, num4, num6, data4, data6⟩, left, right⟩ := place
        obtain ⟨rfl, rfl⟩ := hnums
        show RadixNode.clean _ = _
        unfold RadixNode.clean
        rw [if_pos hnode]
      rw [hpfx, hnode]
      obtain _ | q := refPrefix sur none p
      · rfl
      obtain _ | q := q
      · rfl
      simp only
      rw [hsame]
      have hglue : (numberGlue radix none p.family { place.node with pfx := some q }).1.pfx ≠ none := by
        unfold numberGlue
        cases p.family <;> exact some_ne_none q
      split
      · rw [← inserted_clean, clean_setNode place hglue]
        rfl
      · rfl
  rw [if_neg hhere, if_neg hhere]
  split
  · rfl
  split
  · rfl
  obtain _ | q := refPrefix sur none p
  · rfl
  obtain _ | q := q
  · rfl
  simp only [hnew]
  by_cases hdiffer : place.node.bit = differ
  · rw [if_pos hdiffer, if_pos hdiffer]
    by_cases hright : goesRight p.add place.node.bit = true
    · rw [if_pos hright, if_pos hright]
      by_cases hnil : place.right = .nil
      · rw [if_pos hnil, if_pos (hright'.2 hnil), ← inserted_clean]
        unfold Place.clean
        rw [hnewclean q]
        rfl
      · rw [if_neg hnil, if_neg (fun h => hnil (hright'.1 h))]
        rfl
    rw [if_neg hright, if_neg hright]
    by_cases hnil : place.left = .nil
    · rw [if_pos hnil, if_pos (hleft'.2 hnil), ← inserted_clean]
      unfold Place.clean
      rw [hnewclean q]
      rfl
    · rw [if_neg hnil, if_neg (fun h => hnil (hleft'.1 h))]
      rfl
  rw [if_neg hdiffer, if_neg hdiffer]
  by_cases habove : p.bitlen = differ
  · rw [if_pos habove, if_pos habove]
    by_cases hright : goesRight test p.bitlen = true
    · rw [if_pos hright, if_pos hright, ← inserted_clean]
      unfold Place.clean
      rw [hnewclean q]
      rfl
    rw [if_neg hright, if_neg hright, ← inserted_clean]
    unfold Place.clean
    rw [hnewclean q]
    rfl
  rw [if_neg habove, if_neg habove, ← inserted_clean]
  unfold Place.clean
  rw [hnewclean q]
  rfl

theorem climb_root (differ : ℕ) : ∀ (path : List (Frame RadixNode)) (a : RadixNode) (l r : BitTree RadixNode),
    (climb differ path a l r).root = plug path (.node a l r)
  | [], _, _, _ => rfl
  | ⟨b, true, other⟩ :: path, a, l, r => by
    rw [climb]
    split
    · exact climb_root differ path b other (.node a l r)
    · rfl
  | ⟨b, false, other⟩ :: path, a, l, r => by
    rw [climb]
    split
    · exact climb_root differ path b (.node a l r) other
    · rfl
/-- At the place of the prefix there is a node that has lost its prefix and kept its ordinals. -/
def Stale (radix : RadixTree) (p : Prefix) : Prop :=
  ∃ place : Place, place.root = radix.head ∧ place.node.pfx = none ∧ (place.node.num4 ≠ -1 ∨ place.node.num6 ≠ -1) ∧
    place.node.bit = p.bitlen ∧
    ∀ b, b ∈ place.left.labels ∨ b ∈ place.right.labels → ∀ k ∈ key b, Agree p.bitlen k (toBits p.add)

theorem Found.agree_below {p : Prefix} {test : List (BitVec 8)} {differ : ℕ} {start place : Place} {b : RadixNode} {k : Bits}
    (h : Found (erase radix) p (toBits test) differ start place.clean) (hdiffer : differ = p.bitlen)
    (hbit : place.node.bit = p.bitlen) (hb : b ∈ place.left.labels ∨ b ∈ place.right.labels) (hk : k ∈ Radix.key b) :
    Agree p.bitlen k (toBits p.add) := by
  have hmem : b.clean ∈ (BitTree.node place.clean.node place.clean.left place.clean.right).labels := by
    refine BitTree.mem_labels_node.2 (Or.inr (hb.imp (fun h => ?_) (fun h => ?_)))
    · show _ ∈ (BitTree.map _ _).labels
      rw [BitTree.labels_map]
      exact mem_map_of_mem h
    · show _ ∈ (BitTree.map _ _).labels
      rw [BitTree.labels_map]
      exact mem_map_of_mem h
  have hagree := (h.climbed.below.fits.of_mem hmem).2 k (by rw [key_clean]; exact hk)
  have hbit' : place.clean.node.bit = p.bitlen := (clean_bit place.node).trans hbit
  rw [hbit'] at hagree
  exact hagree.trans (hdiffer ▸ h.agree).symm

theorem insert_erase (sur : Surroundings) {p : Prefix} (hs : Struct (erase radix).head) (hstale : ¬ Stale radix p) :
    insert sur (erase radix) none p = (insert sur radix none p).map eraseAll := by
  have hempty : (erase radix).head = .nil ↔ radix.head = .nil := BitTree.map_eq_nil _
  unfold insert
  by_cases hnil : radix.head = .nil
  · rw [if_pos hnil, if_pos (hempty.2 hnil)]
    split
    · rfl
    obtain _ | q := refPrefix sur none p
    · rfl
    obtain _ | q := q
    · rfl
    have hnew : (newNode radix none p.family p.bitlen q).1.pfx ≠ none := by
      rw [(newNode_shape radix none p.family p.bitlen q).2]
      exact some_ne_none q
    rw [← inserted_clean]
    unfold Place.clean
    rw [clean_of_pfx hnew]
    rfl
  have hnil' : (erase radix).head ≠ .nil := fun h => hnil (hempty.1 h)
  rw [if_neg hnil, if_neg hnil']
  have hdescend : descend p.add p.bitlen (erase radix).head [] none =
      (descend p.add p.bitlen radix.head [] none).map Place.clean := descend_clean p.add p.bitlen radix.head [] none
  obtain ⟨start, -, hstart, -, hroot, -⟩ := descend_spec p.add p.bitlen radix.head [] none hnil
  obtain ⟨start', t, hstart', ht, hfound⟩ := insert_found p hs hnil'
  rw [hdescend, hstart] at hstart'
  cases hstart'
  have ht' : start.node.pfx = some t := (clean_pfx start.node).symm.trans ht
  rw [hdescend, hstart]
  simp only [map_some, ht, ht']
  have hbit : start.clean.node.bit = start.node.bit := clean_bit start.node
  rw [hbit] at hfound ⊢
  dsimp only at hfound
  have hclimb := climb_clean (differBit p.add t.add (if start.node.bit < p.bitlen then start.node.bit else p.bitlen)) start.path
    start.node start.left start.right
  have hclimb' : climb (differBit p.add t.add (if start.node.bit < p.bitlen then start.node.bit else p.bitlen)) start.clean.path
    start.clean.node start.clean.left start.clean.right = _ := hclimb
  rw [hclimb'] at hfound ⊢
  refine insertAt_erase sur radix p t.add _ _ (fun hdiffer hnode hpfx => ?_)
  by_contra hnums
  refine hstale ⟨_, (climb_root _ _ _ _ _).trans hroot, hpfx, ?_, hnode, fun b hb k hk => ?_⟩
  · by_contra hno
    rw [not_or, not_not, not_not] at hno
    exact hnums hno
  · exact hfound.agree_below hdiffer hnode hb hk

theorem remove_erase {radix radix' : RadixTree} {place : Place} (h : remove radix place = .done radix') :
    erase radix' = { erase radix with head := place.clean.cleared.root } := by
  unfold remove at h
  rw [if_pos (remove_done_iff.1 ⟨radix', h⟩)] at h
  cases h
  have hnode : RadixNode.clean { place.node with pfx := none, data4 := none, data6 := none } =
      ⟨place.clean.node.bit, none, -1, -1, none, none⟩ := by
    unfold Place.clean
    rw [clean_bit]
    rfl
  unfold erase
  rw [← root_clean]
  unfold Place.cleared
  rw [← hnode]
  rfl

theorem mem_erase {x : RadixNode} (hx : x.pfx ≠ none) : x ∈ (erase radix).head.labels ↔ x ∈ radix.head.labels := by
  unfold erase
  simp only [BitTree.labels_map, mem_map]
  constructor
  · rintro ⟨a, ha, rfl⟩
    rw [clean_pfx] at hx
    rw [clean_of_pfx hx]
    exact ha
  · exact fun h => ⟨x, h, clean_of_pfx hx⟩

theorem FindsFirst.of_erase {h : Prefix} (hf : FindsFirst (erase radix) log h) : FindsFirst radix log h := by
  unfold FindsFirst at hf
  rw [search_erase] at hf
  refine hf.imp id ?_
  rintro ⟨a, before, p, after, hsearch, ha, hlog, hc, hsame, hfirst, hmin⟩
  refine ⟨a, before, p, after, hsearch, (mem_erase hsame.pfx_ne).1 ha, hlog, hc, hsame, hfirst, fun q hq hqc b hb hqb => ?_⟩
  exact hmin q hq hqc b ((mem_erase hqb.pfx_ne).2 hb) hqb

end stale

/-! ### Runs -/

/-- The trees that insertions and removals make from the empty one, with the prefixes that are there, in the order of their
insertion.  No insertion is for the place of a node that a removal has left without its prefix, and every removal is of a node with
two children. -/
inductive Changes : List Prefix → RadixTree → Prop
  | empty : Changes [] ⟨.nil, 0, 0⟩
  | insert {log : List Prefix} {radix radix' : RadixTree} {sur : Surroundings} {p : Prefix} {place : Place} : Changes log radix →
      Given p → ¬ Stale radix p → insert sur radix none p = some (.success, radix', some place) → Changes (log ++ [p]) radix'
  | nomemory {log : List Prefix} {radix radix' : RadixTree} {sur : Surroundings} {p : Prefix} : Changes log radix →
      Given p → ¬ Stale radix p → insert sur radix none p = some (.nomemory, radix', none) → Changes log radix'
  | remove {log : List Prefix} {radix radix' : RadixTree} {place : Place} : Changes log radix → place.root = radix.head →
      place.right ≠ .nil ∧ place.left ≠ .nil → remove radix place = .done radix' → Changes (without log place.node) radix'

section changes

variable {radix : RadixTree} {log : List Prefix}

theorem insert_cases_erase (ho : Ordered (erase radix) log) (sur : Surroundings) {p : Prefix} (hp : Given p) (hstale : ¬ Stale radix p) :
    (∃ radix', insert sur radix none p = some (.nomemory, radix', none) ∧ Ordered (erase radix') log) ∨
      ∃ radix' place, insert sur radix none p = some (.success, radix', some place) ∧ Ordered (erase radix') (log ++ [p]) := by
  have herase := insert_erase sur ho.struct hstale
  obtain hno | ⟨radix', place, hins, ho'⟩ := ho.insert_cases sur hp
  · rw [hno] at herase
    obtain ⟨⟨r, radix', place⟩, hins, heq⟩ := map_eq_some_iff.1 herase.symm
    obtain ⟨rfl, hradix, hplace⟩ := Prod.mk.inj heq |>.imp_right Prod.mk.inj
    obtain rfl : place = none := map_eq_none_iff.1 hplace
    exact .inl ⟨radix', hins, hradix ▸ ho⟩
  rw [hins] at herase
  obtain ⟨⟨r, radix'', place'⟩, hins', heq⟩ := map_eq_some_iff.1 herase.symm
  obtain ⟨rfl, hradix, hplace⟩ := Prod.mk.inj heq |>.imp_right Prod.mk.inj
  obtain ⟨place'', rfl, -⟩ := map_eq_some_iff.1 hplace
  exact .inr ⟨radix'', place'', hins', hradix ▸ ho'⟩

theorem remove_ordered {radix' : RadixTree} (ho : Ordered (erase radix) log) {place : Place} (hhead : place.root = radix.head)
    (hremove : remove radix place = .done radix') : Ordered (erase radix') (without log place.node) := by
  obtain ⟨hright, hleft⟩ := remove_done_iff.1 ⟨radix', hremove⟩
  have hhead' : place.clean.root = (erase radix).head := by
    rw [root_clean, hhead]
    rfl
  have hordered := ho.remove hhead' (fun h => hright ((BitTree.map_eq_nil _).1 h)) (fun h => hleft ((BitTree.map_eq_nil _).1 h))
  have hsame : ∀ p, Same p place.clean.node ↔ Same p place.node := by
    intro p
    show Same p place.node.clean ↔ Same p place.node
    unfold Same Matches
    rw [clean_bit, key_clean]
  have hlog : without log place.clean.node = without log place.node := by
    classical
    unfold without
    refine filter_congr fun p _ => ?_
    exact decide_eq_decide.2 (not_congr (hsame p))
  rw [remove_erase hremove, ← hlog]
  exact hordered

theorem Changes.ordered (h : Changes log radix) : Ordered (erase radix) log := by
  induction h with
  | empty => exact .empty
  | @insert log radix radix' sur p place _ hp hstale hins ih =>
    obtain ⟨radix'', hno, -⟩ | ⟨radix'', place', hins', ho⟩ := insert_cases_erase ih sur hp hstale
    · rw [hins] at hno
      cases hno
    rw [hins] at hins'
    cases hins'
    exact ho
  | @nomemory log radix radix' sur p _ hp hstale hins ih =>
    obtain ⟨radix'', hno, ho⟩ | ⟨radix'', place', hins', -⟩ := insert_cases_erase ih sur hp hstale
    · rw [hins] at hno
      cases hno
      exact ho
    · rw [hins] at hins'
      cases hins'
  | @remove log radix radix' place _ hhead _ hremove ih =>
    exact remove_ordered ih hhead hremove

/-- Two searches that follow the same log. -/
theorem FindsFirst.same {radix' : RadixTree} {h : Prefix} (h₁ : FindsFirst radix log h) (h₂ : FindsFirst radix' log h) :
    search radix h = none ∧ search radix' h = none ∨
      ∃ p a b, search radix h = some a ∧ search radix' h = some b ∧ Same p a ∧ Same p b := by
  obtain ⟨hnone, hno⟩ | ⟨a, before, p, after, ha, -, rfl, hc, hsame, hfirst, -⟩ := h₁
  · obtain ⟨hnone', -⟩ | ⟨b, before, p, after, -, -, rfl, hc, -⟩ := h₂
    · exact .inl ⟨hnone, hnone'⟩
    · exact absurd hc (hno p (mem_append_right _ mem_cons_self))
  obtain ⟨-, hno⟩ | ⟨b, before', p', after', hb, -, hlog, hc', hsame', hfirst', -⟩ := h₂
  · exact absurd hc (hno p (mem_append_right _ mem_cons_self))
  have heq : p = p' := by
    obtain ⟨rest, hrest, hrest'⟩ | ⟨rest, hrest, hrest'⟩ := append_eq_append_iff.1 hlog
    · cases rest with
      | nil => exact (cons.inj hrest').1
      | cons x rest =>
        obtain ⟨rfl, -⟩ := cons.inj hrest'
        refine absurd hc (hfirst' p ?_)
        rw [hrest]
        exact mem_append_right _ mem_cons_self
    cases rest with
    | nil => exact (cons.inj hrest').1.symm
    | cons x rest =>
      obtain ⟨rfl, -⟩ := cons.inj hrest'
      refine absurd hc' (hfirst p' ?_)
      rw [hrest]
      exact mem_append_right _ mem_cons_self
  subst heq
  exact .inr ⟨p, a, b, ha, hb, hsame, hsame'⟩

/-- In a run in which no prefix is inserted for the place of a node that has lost its prefix, and only nodes with two children are
removed, the tree is a Patricia tree, its nodes are counted, searches are as if the removed prefixes had never been inserted, and
nothing trips an assertion; a removal leaves a tree just in case its node has two children. -/
theorem changes_sound (h : Changes log radix) : IsPatricia radix.head ∧ radix.numActive = radix.head.labels.length ∧
    (∀ host, IsHost host → FindsFirst radix log host ∧ ∀ fresh, Inserts log fresh →
      (search radix host = none ∧ search fresh host = none ∨
        ∃ p a b, search radix host = some a ∧ search fresh host = some b ∧ Same p a ∧ Same p b)) ∧
    (∀ sur p, Given p → ¬ Stale radix p → insert sur radix none p ≠ none) ∧ ∀ place : Place, place.root = radix.head →
      ((∃ radix', remove radix place = .done radix') ↔ place.right ≠ .nil ∧ place.left ≠ .nil) := by
  have ho := h.ordered
  refine ⟨ho.struct.isPatricia.of_erase, ?_, fun host hhost => ?_, fun sur p hp hstale hnone => ?_, fun place _ => remove_done_iff⟩
  · have hactive := ho.active
    unfold erase at hactive
    rw [BitTree.labels_map, length_map] at hactive
    exact hactive
  · have hfinds := (ho.findsFirst hhost).of_erase
    exact ⟨hfinds, fun fresh hfresh => hfinds.same (hfresh.ordered.findsFirst hhost)⟩
  · obtain ⟨radix', hins, -⟩ | ⟨radix', place, hins, -⟩ := insert_cases_erase ho sur hp hstale
    · rw [hnone] at hins
      cases hins
    · rw [hnone] at hins
      cases hins

theorem not_stale {p : Prefix} (h : ∀ a ∈ radix.head.labels, a.pfx = none → a.bit = p.bitlen → a.num4 = -1 ∧ a.num6 = -1) :
    ¬ Stale radix p := by
  rintro ⟨place, hroot, hpfx, hnum, hbit, -⟩
  obtain ⟨h4, h6⟩ := h place.node (hroot ▸ Place.mem_root.2 (Or.inl rfl)) hpfx hbit
  exact hnum.elim (fun hne => hne h4) (fun hne => hne h6)

end changes

/-- The prefix of the first `bits` bits of an address that starts with the byte. -/
def netPrefix (byte : BitVec 8) (bits : ℕ) : Prefix := ⟨.inet, bits, byte :: replicate 15 0⟩

/-- The node of such a prefix in a tree. -/
def netNode (byte : BitVec 8) (bits : ℕ) (num : ℤ) : RadixNode := ⟨bits, some ⟨.inet, bits, [byte, 0, 0, 0]⟩, num, -1, none, none⟩

/-- 0.0.0.0/0 above 0.0.0.0/1 and 128.0.0.0/1. -/
def forkTree : RadixTree :=
  ⟨.node (netNode 0 0 1) (.node (netNode 0 1 2) .nil .nil) (.node (netNode 128 1 3) .nil .nil), 3, 3⟩

/-- Without 0.0.0.0/0, and with 64.0.0.0/2. -/
def placeholderTree : RadixTree :=
  ⟨.node ⟨0, none, 1, -1, none, none⟩ (.node (netNode 0 1 2) .nil (.node (netNode 64 2 4) .nil .nil))
    (.node (netNode 128 1 3) .nil .nil), 4, 4⟩

/-- The first prefix is removed from between the two others, and another one is inserted. -/
theorem changes_sound_placeholder :
    ∃ log, Changes log placeholderTree ∧ netPrefix 64 2 ∈ log ∧ netPrefix 0 0 ∉ log ∧ IsPatricia placeholderTree.head ∧
      placeholderTree.numActive = placeholderTree.head.labels.length ∧
      FindsFirst placeholderTree log ⟨.inet, 32, [64, 0, 0, 1] ++ replicate 12 0⟩ := by
  have hfork : Changes (([] ++ [netPrefix 0 0]) ++ [netPrefix 0 1] ++ [netPrefix 128 1]) forkTree := by
    have h0 : Changes ([] ++ [netPrefix 0 0]) ⟨.node (netNode 0 0 1) .nil .nil, 1, 1⟩ :=
      @Changes.insert [] ⟨.nil, 0, 0⟩ _ ⟨true, true, true, []⟩ _ _ .empty ⟨by decide, rfl⟩ (not_stale nofun) rfl
    have h1 : Changes ([] ++ [netPrefix 0 0] ++ [netPrefix 0 1]) ⟨.node (netNode 0 0 1) (.node (netNode 0 1 2) .nil .nil) .nil, 2, 2⟩ :=
      @Changes.insert _ _ _ ⟨true, true, true, []⟩ _ _ h0 ⟨by decide, rfl⟩ (not_stale (by decide)) rfl
    exact @Changes.insert _ _ _ ⟨true, true, true, []⟩ _ _ h1 ⟨by decide, rfl⟩ (not_stale (by decide)) rfl
  have hremove := @Changes.remove _ _ _ ⟨[], netNode 0 0 1, .node (netNode 0 1 2) .nil .nil, .node (netNode 128 1 3) .nil .nil⟩
    hfork rfl ⟨nofun, nofun⟩ rfl
  have hrun : Changes _ placeholderTree :=
    @Changes.insert _ _ _ ⟨true, true, true, []⟩ (netPrefix 64 2) _ hremove ⟨by decide, rfl⟩ (not_stale (by decide)) rfl
  obtain ⟨hpatricia, hactive, hfinds, -⟩ := changes_sound hrun
  refine ⟨_, hrun, mem_append_right _ mem_cons_self, fun h => ?_, hpatricia, hactive, (hfinds _ ⟨rfl, rfl⟩).1⟩
  obtain h | h := mem_append.1 h
  · exact (mem_without.1 h).2 ⟨rfl, _, rfl, fun i hi => absurd hi (Nat.not_lt_zero i)⟩
  · exact absurd (mem_singleton.1 h) (by decide)

/-- 0.0.0.0/0 is removed from between 0.0.0.0/1 and 128.0.0.0/1, and inserted again; the only prefix of a tree is removed; and a
leaf is removed from below its parent. -/
theorem reinsert_insist : (∃ r1 r2 r4 p1 p2 p3, ∃ place : Place,
      insert ⟨true, true, true, []⟩ ⟨.nil, 0, 0⟩ none (netPrefix 0 0) = some (.success, r1, some p1) ∧
      insert ⟨true, true, true, []⟩ r1 none (netPrefix 0 1) = some (.success, r2, some p2) ∧
      insert ⟨true, true, true, []⟩ r2 none (netPrefix 128 1) = some (.success, forkTree, some p3) ∧
      place.root = forkTree.head ∧ place.node = netNode 0 0 1 ∧ remove forkTree place = .done r4 ∧
      insert ⟨true, true, true, []⟩ r4 none (netPrefix 0 0) = none ∧ remove r1 p1 = .insist ∧ remove r2 p2 = .dangling) := by
  refine ⟨⟨.node (netNode 0 0 1) .nil .nil, 1, 1⟩, ⟨.node (netNode 0 0 1) (.node (netNode 0 1 2) .nil .nil) .nil, 2, 2⟩,
    ⟨.node ⟨0, none, 1, -1, none, none⟩ (.node (netNode 0 1 2) .nil .nil) (.node (netNode 128 1 3) .nil .nil), 3, 3⟩,
    _, _, _, ⟨[], netNode 0 0 1, .node (netNode 0 1 2) .nil .nil, .node (netNode 128 1 3) .nil .nil⟩, rfl, rfl, rfl, rfl, rfl, rfl,
    ?_, rfl, rfl⟩
  decide +kernel

end Bind9.Radix
