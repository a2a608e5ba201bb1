import Bind9.Radix

/-! # What insertion does to a radix tree

The structure of the trees that `isc_radix_insert` builds (`Struct`), and its effect on the nodes
that have a prefix: `insert_spec` says that exactly the node of the inserted prefix is changed or
added, and where it is.  No `INSIST` of the insertion fails. -/

namespace Bind9.Radix

open Patricia
open List
open Function

/-! ### Bytes and bits -/

def toBits (add : List (BitVec 8)) : Bits := fun i => (add.getD (i / 8) 0).getMsbD (i % 8)

theorem byte_bitTest (j : Fin 8) (r : BitVec 8) : (r &&& (0x80 >>> j.val) != 0) = r.getMsbD j.val := by
  have hmask : ∀ j : Fin 8, ((0x80 >>> j.val : ℕ) : BitVec 8) = BitVec.twoPow 8 (7 - j.val) := by decide
  have hne : ∀ j : Fin 8, (BitVec.twoPow 8 (7 - j.val) != 0) = true := by decide
  rw [hmask, BitVec.and_twoPow, BitVec.getMsbD, decide_eq_true j.isLt, Bool.true_and]
  cases r.getLsbD (7 - j.val) with
  | false => rfl
  | true => exact hne j

theorem bitTest_eq (add : List (BitVec 8)) (i : ℕ) : bitTest add i = toBits add i :=
  byte_bitTest ⟨i % 8, Nat.mod_lt _ (by omega)⟩ _

theorem byte_firstBit (r : BitVec 8) (hr : r ≠ 0) : firstBit r < 8 ∧ r.getMsbD (firstBit r) = true ∧
    ∀ j : Fin 8, j.val < firstBit r → r.getMsbD j.val = false := by
  rw [firstBit]
  cases hfind : (List.range 8).find? (fun j => r &&& (0x80 >>> j) != 0) with
  | none =>
    refine absurd (BitVec.eq_of_getMsbD_eq fun i hi => ?_) hr
    rw [← byte_bitTest ⟨i, hi⟩]
    simpa using find?_eq_none.1 hfind i (mem_range.2 hi)
  | some i =>
    obtain ⟨hbit, hi, hbefore⟩ := find?_range_eq_some.1 hfind
    refine ⟨mem_range.1 hi, (byte_bitTest ⟨i, mem_range.1 hi⟩ r).symm.trans hbit, fun j hj => ?_⟩
    rw [← byte_bitTest]
    simpa using hbefore j.val hj

theorem byte_mask {m : ℕ} (hm : m < 8) (a b : BitVec 8) :
    a &&& (BitVec.allOnes 8 <<< (8 - m)) = b &&& (BitVec.allOnes 8 <<< (8 - m)) ↔ ∀ j < m, a.getMsbD j = b.getMsbD j := by
  have hmask : ∀ j, (BitVec.allOnes 8 <<< (8 - m)).getMsbD j = decide (j < m) := by
    intro j
    rw [BitVec.getMsbD_shiftLeft, BitVec.getMsbD_allOnes, decide_eq_decide]
    omega
  constructor
  · intro h j hj
    have hand : (a &&& (BitVec.allOnes 8 <<< (8 - m))).getMsbD j =
        (b &&& (BitVec.allOnes 8 <<< (8 - m))).getMsbD j := by rw [h]
    rw [BitVec.getMsbD_and, BitVec.getMsbD_and, hmask] at hand
    simpa [hj] using hand
  · intro h
    apply BitVec.eq_of_getMsbD_eq
    intro j _
    rw [BitVec.getMsbD_and, BitVec.getMsbD_and, hmask]
    by_cases hj : j < m
    · rw [h j hj]
    · simp [hj]

theorem agree_bytes {a b : List (BitVec 8)} {n : ℕ} :
    Agree (8 * n) (toBits a) (toBits b) ↔ ∀ i < n, a.getD i 0 = b.getD i 0 := by
  constructor
  · intro h i hi
    apply BitVec.eq_of_getMsbD_eq
    intro j hj
    have := h (8 * i + j) (by omega)
    unfold toBits at this
    rw [show (8 * i + j) / 8 = i by omega, show (8 * i + j) % 8 = j by omega] at this
    exact this
  · intro h i hi
    unfold toBits
    rw [h (i / 8) (by omega)]

theorem toBits_byte (a : List (BitVec 8)) (i j : ℕ) (hj : j < 8) : toBits a (8 * i + j) = (a.getD i 0).getMsbD j := by
  unfold toBits
  rw [show (8 * i + j) / 8 = i by omega, show (8 * i + j) % 8 = j by omega]

theorem take_eq_iff {a b : List (BitVec 8)} {n : ℕ} (ha : n ≤ a.length) (hb : n ≤ b.length) :
    a.take n = b.take n ↔ ∀ i < n, a.getD i 0 = b.getD i 0 := by
  constructor
  · intro h i hi
    have := congrArg (fun l => l[i]?) h
    simp only [getElem?_take, hi, if_true] at this
    rw [getD_eq_getElem?_getD, getD_eq_getElem?_getD, this]
  · intro h
    apply ext_getElem?
    intro i
    rw [getElem?_take, getElem?_take]
    by_cases hi : i < n
    · have := h i hi
      rw [getD_eq_getElem?_getD, getD_eq_getElem?_getD, getElem?_eq_getElem (by omega),
        getElem?_eq_getElem (by omega)] at this
      simp only [hi, if_true]
      rw [getElem?_eq_getElem (by omega), getElem?_eq_getElem (by omega)]
      exact congrArg some this
    · simp [hi]

theorem compWithMask_iff {a b : List (BitVec 8)} {mask : ℕ} (ha : mask ≤ 8 * a.length)
    (hb : mask ≤ 8 * b.length) : compWithMask a b mask = true ↔ Agree mask (toBits a) (toBits b) := by
  unfold compWithMask
  split
  · next h0 => exact ⟨fun _ i hi => by omega, fun _ => rfl⟩
  have hm := Nat.mod_lt mask (show 8 > 0 by omega)
  have hsplit : Agree mask (toBits a) (toBits b) ↔ (∀ i < mask / 8, a.getD i 0 = b.getD i 0) ∧
      ∀ j < mask % 8, (a.getD (mask / 8) 0).getMsbD j = (b.getD (mask / 8) 0).getMsbD j := by
    constructor
    · intro h
      refine ⟨agree_bytes.1 (h.mono (by omega)), fun j hj => ?_⟩
      rw [← toBits_byte a _ j (by omega), ← toBits_byte b _ j (by omega)]
      exact h _ (by omega)
    · rintro ⟨h1, h2⟩ i hi
      rcases Nat.lt_or_ge i (8 * (mask / 8)) with hlt | hge
      · exact agree_bytes.2 h1 i hlt
      obtain ⟨j, rfl⟩ : ∃ j, i = 8 * (mask / 8) + j := ⟨i - 8 * (mask / 8), by omega⟩
      rw [toBits_byte a _ j (by omega), toBits_byte b _ j (by omega)]
      exact h2 j (by omega)
  rw [hsplit, ← take_eq_iff (by omega) (by omega)]
  split
  · next hbytes =>
      simp only [hbytes, true_and, Bool.or_eq_true, beq_iff_eq]
      rw [byte_mask hm]
      constructor
      · rintro (h | h)
        · intro j hj
          omega
        · exact h
      · exact .inr
  · next hbytes => simp [hbytes]

theorem differFrom_spec (a b : List (BitVec 8)) : ∀ (steps i : ℕ), Agree (8 * i) (toBits a) (toBits b) →
    Agree (differFrom a b steps i) (toBits a) (toBits b) ∧
      (differFrom a b steps i < 8 * (i + steps) →
        toBits a (differFrom a b steps i) ≠ toBits b (differFrom a b steps i))
  | 0, i, h => ⟨h, fun hlt => by simp [differFrom] at hlt⟩
  | steps + 1, i, h => by
    rw [differFrom]
    by_cases hr : a.getD i 0 ^^^ b.getD i 0 = 0
    · have heq : a.getD i 0 = b.getD i 0 := by simpa [BitVec.xor_eq_zero_iff] using hr
      have hnext : Agree (8 * (i + 1)) (toBits a) (toBits b) := by
        rw [agree_bytes] at h ⊢
        intro k hk
        rcases Nat.lt_succ_iff_lt_or_eq.1 hk with hk | rfl
        · exact h k hk
        · exact heq
      obtain ⟨h1, h2⟩ := differFrom_spec a b steps (i + 1) hnext
      simp only [hr, if_true]
      exact ⟨h1, fun hlt => h2 (by omega)⟩
    obtain ⟨hlt, hbit, hbefore⟩ := byte_firstBit _ hr
    simp only [hr, if_false]
    refine ⟨?_, fun _ => ?_⟩
    · intro k hk
      rcases Nat.lt_or_ge k (8 * i) with hk' | hk'
      · exact h k hk'
      obtain ⟨j, rfl⟩ : ∃ j, k = 8 * i + j := ⟨k - 8 * i, by omega⟩
      rw [toBits_byte a i j (by omega), toBits_byte b i j (by omega)]
      have := hbefore ⟨j, by omega⟩ (show j < _ by omega)
      simpa [BitVec.getMsbD_xor] using this
    · rw [toBits_byte a i _ hlt, toBits_byte b i _ hlt]
      intro heq
      rw [BitVec.getMsbD_xor, heq] at hbit
      simp at hbit

theorem differBit_spec (a b : List (BitVec 8)) (check : ℕ) :
    differBit a b check ≤ check ∧ Agree (differBit a b check) (toBits a) (toBits b) ∧
      (differBit a b check < check → toBits a (differBit a b check) ≠ toBits b (differBit a b check)) := by
  obtain ⟨h1, h2⟩ := differFrom_spec a b ((check + 7) / 8) 0 (fun i hi => absurd hi (by omega))
  unfold differBit
  refine ⟨Nat.min_le_right _ _, h1.mono (Nat.min_le_left _ _), fun hlt => ?_⟩
  have hmin : min (differFrom a b ((check + 7) / 8) 0) check = differFrom a b ((check + 7) / 8) 0 := by omega
  rw [hmin] at hlt ⊢
  exact h2 (by omega)

/-! ### The structure of a tree -/

def key (a : RadixNode) : Option Bits := a.pfx.map (fun p => toBits p.add)

def Same (p : Prefix) (a : RadixNode) : Prop :=
  a.bit = p.bitlen ∧ Matches RadixNode.bit key (toBits p.add) a

/-- A node with a prefix stands where the length of the prefix tells, and one without is empty. -/
structure NodeOk (a : RadixNode) : Prop where
  bit_le : a.bit ≤ RADIX_MAXBITS
  pfx : ∀ p ∈ a.pfx, p.Legal ∧ p.bitlen = a.bit ∧ a.bit ≤ 8 * p.add.length
  glue : a.pfx = none → a.num4 = -1 ∧ a.num6 = -1 ∧ a.data4 = none ∧ a.data6 = none

/-- A node without a prefix branches. -/
def Forks : BitTree RadixNode → Prop
  | .nil => True
  | .node a l r => (a.pfx = none → l ≠ .nil ∧ r ≠ .nil) ∧ Forks l ∧ Forks r

/-- A tree that may hang where the first `n` bits are those of `c`. -/
structure Below (c : Bits) (n : ℕ) (t : BitTree RadixNode) : Prop where
  fits : Fits RadixNode.bit key c n t
  forks : Forks t
  nodes : ∀ a ∈ t.labels, NodeOk a

/-- A path to a place where the first `n` bits are those of `c`. -/
structure Around (c : Bits) (path : List (Frame RadixNode)) (n : ℕ) : Prop where
  hangs : Hangs RadixNode.bit key c path n
  forks : ∀ f ∈ path, (f.label.pfx = none → f.other ≠ .nil) ∧ Forks f.other
  nodes : ∀ f ∈ path, NodeOk f.label ∧ ∀ a ∈ f.other.labels, NodeOk a

def Struct (t : BitTree RadixNode) : Prop := ∀ c, Below c 0 t

theorem forks_join {a : RadixNode} {right : Bool} {t other : BitTree RadixNode} : Forks (join a right t other) ↔
      (a.pfx = none → t ≠ .nil ∧ other ≠ .nil) ∧ Forks t ∧ Forks other := by
  cases right with
  | false => exact Iff.rfl
  | true => rw [join, if_pos rfl, Forks, and_comm (a := other ≠ .nil), and_comm (a := Forks other)]

theorem join_ne_nil (a : RadixNode) (right : Bool) (t other : BitTree RadixNode) :
    join a right t other ≠ .nil := by cases right <;> simp [join]

theorem forks_plug : ∀ {path : List (Frame RadixNode)} {t : BitTree RadixNode}, t ≠ .nil →
    (Forks (plug path t) ↔
      Forks t ∧ ∀ f ∈ path, (f.label.pfx = none → f.other ≠ .nil) ∧ Forks f.other)
  | [], t, _ => by simp [plug]
  | f :: path, t, ht => by
    rw [plug, forks_plug (join_ne_nil _ _ _ _), forks_join]
    simp only [forall_mem_cons, ne_eq, ht, not_false_eq_true, true_and]
    constructor
    · rintro ⟨⟨h1, h2, h3⟩, h4⟩
      exact ⟨h2, ⟨h1, h3⟩, h4⟩
    · rintro ⟨h2, ⟨h1, h3⟩, h4⟩
      exact ⟨⟨h1, h2, h3⟩, h4⟩
/-- A tree at its place. -/
theorem Around.plug {c : Bits} {path : List (Frame RadixNode)} {n : ℕ} {t : BitTree RadixNode}
    (hp : Around c path n) (ht : Below c n t) (hne : t ≠ .nil) : Struct (plug path t) := by
  intro d
  refine ⟨(hp.hangs.fits_plug ht.fits).congr (fun i hi => by omega), ?_, ?_⟩
  · exact (forks_plug hne).2 ⟨ht.forks, hp.forks⟩
  · intro a ha
    rcases mem_plug.1 ha with ha | ⟨f, hf, rfl | ha⟩
    · exact ht.nodes a ha
    · exact (hp.nodes f hf).1
    · exact (hp.nodes f hf).2 a ha

/-- Taking a tree apart at a place. -/
theorem Struct.unplug {path : List (Frame RadixNode)} {t : BitTree RadixNode} (h : Struct (plug path t))
    (hne : t ≠ .nil) : ∃ c n, Around c path n ∧ Below c n t := by
  have h0 := h (fun _ => false)
  obtain ⟨c, n, hangs, hfits⟩ := h0.fits.unplug
  obtain ⟨hforks, hpath⟩ := (forks_plug hne).1 h0.forks
  refine ⟨c, n, ⟨hangs, hpath, fun f hf => ?_⟩, ⟨hfits, hforks, fun a ha => ?_⟩⟩
  · refine ⟨h0.nodes _ (mem_plug.2 (Or.inr ⟨f, hf, Or.inl rfl⟩)), fun a ha => ?_⟩
    exact h0.nodes _ (mem_plug.2 (Or.inr ⟨f, hf, Or.inr ha⟩))
  · exact h0.nodes _ (mem_plug.2 (Or.inl ha))

/-- At a node with a prefix, the prefix tells the way. -/
theorem Struct.at_key {path : List (Frame RadixNode)} {a : RadixNode} {l r : BitTree RadixNode} {k : Bits}
    (h : Struct (plug path (.node a l r))) (hk : key a = some k) : Around k path a.bit ∧ Below k a.bit (.node a l r) := by
  obtain ⟨c, n, hp, ht⟩ := h.unplug (by simp)
  obtain ⟨hn, k', hck, hcar, hl, hr⟩ := ht.fits
  have hkk : Agree a.bit k k' := hcar k hk
  refine ⟨⟨(hp.hangs.congr (hck.trans (hkk.mono hn).symm)).mono hn, hp.forks, hp.nodes⟩,
    ⟨⟨le_rfl, k', hkk, hcar, hl, hr⟩, ht.forks, ht.nodes⟩⟩

/-! ### Down and up again -/

/-- Why the descent ends where it does. -/
def Stops (addr : List (BitVec 8)) (bitlen : ℕ) (p : Place) : Prop :=
  bitlen ≤ p.node.bit ∧ p.node.pfx ≠ none ∨
    (if goesRight addr p.node.bit then p.right else p.left) = .nil

theorem descend_spec (addr : List (BitVec 8)) (bitlen : ℕ) :
    ∀ (t : BitTree RadixNode) (path : List (Frame RadixNode)) (above : Option Place), t ≠ .nil →
      ∃ place new, descend addr bitlen t path above = some place ∧ place.path = new ++ path ∧
        place.root = plug path t ∧ (∀ f ∈ new, f.right = goesRight addr f.label.bit) ∧
        Stops addr bitlen place
  | .node a l r, path, above, _ => by
    rw [descend]
    split
    · by_cases hside : goesRight addr a.bit = true
      · rw [if_pos hside]
        by_cases hr : r = .nil
        · subst hr
          refine ⟨⟨path, a, l, .nil⟩, [], rfl, rfl, rfl, by simp, Or.inr ?_⟩
          simp [hside]
        obtain ⟨place, new, h1, h2, h3, h4, h5⟩ :=
          descend_spec addr bitlen r (⟨a, true, l⟩ :: path) (some ⟨path, a, l, r⟩) hr
        refine ⟨place, new ++ [⟨a, true, l⟩], h1, by simp [h2], h3, ?_, h5⟩
        intro f hf
        rcases mem_append.1 hf with hf | hf
        · exact h4 f hf
        · rw [mem_singleton.1 hf, hside]
      · rw [if_neg hside]
        by_cases hl : l = .nil
        · subst hl
          refine ⟨⟨path, a, .nil, r⟩, [], rfl, rfl, rfl, by simp, Or.inr ?_⟩
          simp [hside]
        obtain ⟨place, new, h1, h2, h3, h4, h5⟩ :=
          descend_spec addr bitlen l (⟨a, false, r⟩ :: path) (some ⟨path, a, l, r⟩) hl
        refine ⟨place, new ++ [⟨a, false, r⟩], h1, by simp [h2], h3, ?_, h5⟩
        intro f hf
        rcases mem_append.1 hf with hf | hf
        · exact h4 f hf
        · rw [mem_singleton.1 hf]
          simpa using hside
    next hstop =>
      push Not at hstop
      exact ⟨⟨path, a, l, r⟩, [], rfl, rfl, rfl, by simp, Or.inl hstop⟩

theorem descend_pfx {addr : List (BitVec 8)} {bitlen : ℕ} {place : Place} (h : Struct place.root)
    (hstop : Stops addr bitlen place) : place.node.pfx ≠ none := by
  intro hnone
  obtain ⟨c, n, -, hbelow⟩ := h.unplug (by simp)
  obtain ⟨hl, hr⟩ := hbelow.forks.1 hnone
  rcases hstop with ⟨-, h⟩ | h
  · exact h hnone
  split at h
  · exact hr h
  · exact hl h

/-- Where the climb ends, seen from a key below. -/
structure Climbed (k : Bits) (differ : ℕ) (path : List (Frame RadixNode)) (a : RadixNode)
    (l r : BitTree RadixNode) (place : Place) : Prop where
  root : place.root = plug path (.node a l r)
  around : Around k place.path differ
  below : Below k place.node.bit (.node place.node place.left place.right)
  differ_le : differ ≤ place.node.bit
  origin : place = ⟨path, a, l, r⟩ ∨
    ∃ f ∈ path, place.node = f.label ∧ f.label.bit < a.bit ∧ k f.label.bit = f.right

theorem Around.tail {k : Bits} {f : Frame RadixNode} {path : List (Frame RadixNode)} {n : ℕ}
    (h : Around k (f :: path) n) : Around k path f.label.bit :=
  ⟨h.hangs.2.2.2.2, fun g hg => h.forks g (mem_cons_of_mem _ hg),
    fun g hg => h.nodes g (mem_cons_of_mem _ hg)⟩

theorem Around.join {k : Bits} {f : Frame RadixNode} {path : List (Frame RadixNode)} {n : ℕ}
    {t : BitTree RadixNode} (h : Around k (f :: path) n) (ht : Below k n t) (hne : t ≠ .nil) :
    Below k f.label.bit (join f.label f.right t f.other) := by
  obtain ⟨hlt, hcar, hside, hother, -⟩ := h.hangs
  obtain ⟨hf, hfo⟩ := h.forks f mem_cons_self
  obtain ⟨hn, hno⟩ := h.nodes f mem_cons_self
  refine ⟨Fits.join le_rfl hcar hside (ht.fits.mono hlt) hother, ?_, ?_⟩
  · exact forks_join.2 ⟨fun hnone => ⟨hne, hf hnone⟩, ht.forks, hfo⟩
  · intro a ha
    rcases mem_join.1 ha with rfl | ha | ha
    · exact hn
    · exact ht.nodes a ha
    · exact hno a ha

theorem climb_spec {k : Bits} {differ : ℕ} : ∀ (path : List (Frame RadixNode)) (a : RadixNode)
    (l r : BitTree RadixNode), differ ≤ a.bit → Around k path a.bit → Below k a.bit (.node a l r) →
      Climbed k differ path a l r (climb differ path a l r)
  | [], a, l, r, hle, hp, ht => ⟨rfl, ⟨trivial, by simp [climb], by simp [climb]⟩, ht, hle, Or.inl rfl⟩
  | f :: path, a, l, r, hle, hp, ht => by
    have hlt : f.label.bit < a.bit := hp.hangs.1
    have hside : k f.label.bit = f.right := hp.hangs.2.2.1
    have hjoin := hp.join ht (by simp)
    rw [climb]
    split
    · next hdiff =>
        have step : ∀ l' r', join f.label f.right (.node a l r) f.other = .node f.label l' r' →
            Climbed k differ (f :: path) a l r (climb differ path f.label l' r') := by
          intro l' r' heq
          rw [heq] at hjoin
          have ih := climb_spec path f.label l' r' hdiff hp.tail hjoin
          refine ⟨?_, ih.around, ih.below, ih.differ_le, Or.inr ?_⟩
          · rw [ih.root, plug, heq]
          · rcases ih.origin with h | ⟨g, hg, h1, h2, h3⟩
            · exact ⟨f, mem_cons_self, by rw [h], hlt, hside⟩
            · exact ⟨g, mem_cons_of_mem _ hg, h1, by omega, h3⟩
        cases hright : f.right with
        | false | true => exact step _ _ (by rw [hright]; rfl)
    next hdiff =>
      push Not at hdiff
      refine ⟨rfl, ⟨⟨hdiff, hp.hangs.2⟩, hp.forks, hp.nodes⟩, ht, hle, Or.inl rfl⟩

/-! ### The nodes around a place -/

/-- The node stands somewhere else in the tree. -/
def Place.Other (p : Place) (x : RadixNode) : Prop :=
  x ∈ p.left.labels ∨ x ∈ p.right.labels ∨ ∃ f ∈ p.path, x = f.label ∨ x ∈ f.other.labels

theorem Place.mem_root {p : Place} {x : RadixNode} : x ∈ p.root.labels ↔ x = p.node ∨ p.Other x := by
  unfold Place.root Place.Other
  rw [mem_plug, BitTree.mem_labels_node, or_assoc, or_assoc]

theorem Same.key {p : Prefix} {a : RadixNode} (h : Same p a) : ∃ k, key a = some k ∧ Agree p.bitlen k (toBits p.add) := by
  obtain ⟨hbit, k, hk, hagree⟩ := h
  exact ⟨k, hk, hbit ▸ hagree⟩

/-- A prefix has one node. -/
theorem Struct.other_not_same {place : Place} {p : Prefix} (h : Struct place.root) (hs : Same p place.node)
    {x : RadixNode} (hx : place.Other x) : ¬ Same p x := by
  obtain ⟨k, hk, hagree⟩ := hs.key
  obtain ⟨hp, ht⟩ := h.at_key hk
  rintro ⟨hbit, hmatch⟩
  have hnode : place.node.bit = p.bitlen := hs.1
  obtain ⟨-, k', -, -, hl, hr⟩ := ht.fits
  rcases hx with hx | hx | ⟨f, hf, rfl | hx⟩
  · have := (hl.of_mem hx).1
    omega
  · have := (hr.of_mem hx).1
    omega
  · have := (hp.hangs.of_mem f hf).1
    omega
  · have hangs := hp.hangs.congr (d := toBits p.add) (hnode ▸ hagree)
    exact (hangs.of_mem f hf).2 x hx hmatch

theorem Struct.setNode {place : Place} {a : RadixNode} (h : Struct place.root)
    (hbit : a.bit = place.node.bit) (hpfx : a.pfx = place.node.pfx) (ha : NodeOk a) :
    Struct (Place.root { place with node := a }) := by
  obtain ⟨c, n, hp, ht⟩ := h.unplug (by simp)
  have hkey : key a = key place.node := by rw [key, key, hpfx]
  obtain ⟨hn, k, hck, hcar, hl, hr⟩ := ht.fits
  refine hp.plug ⟨⟨hn.trans hbit.ge, k, hck, ?_, by rw [hbit]; exact hl, by rw [hbit]; exact hr⟩, ?_, ?_⟩ (by simp)
  · intro k' hk'
    rw [hbit]
    exact hcar k' (hkey ▸ hk')
  · exact ⟨fun hnone => ht.forks.1 (hpfx ▸ hnone), ht.forks.2⟩
  · intro x hx
    rcases BitTree.mem_labels_node.1 hx with rfl | hx
    · exact ha
    · exact ht.nodes x (BitTree.mem_labels_node.2 (Or.inr hx))

/-! ### Insertion -/

/-- A prefix that can be inserted. -/
def Prefix.Ok (p : Prefix) : Prop := p.Legal ∧ p.bitlen ≤ 8 * p.add.length

theorem Prefix.Ok.le_maxbits {p : Prefix} (h : p.Ok) : p.bitlen ≤ RADIX_MAXBITS := by
  obtain ⟨⟨-, h⟩ | ⟨-, h⟩ | ⟨-, h⟩, -⟩ := h <;> · unfold RADIX_MAXBITS; omega

theorem copied_spec {p : Prefix} (h : p.Ok) (junk : List (BitVec 8)) :
    (p.copied junk).Ok ∧ (p.copied junk).bitlen = p.bitlen ∧ Agree p.bitlen (toBits (p.copied junk).add) (toBits p.add) := by
  unfold Prefix.copied
  split
  · exact ⟨h, rfl, Agree.refl _ _⟩
  next h6 =>
    have h32 : p.bitlen ≤ 32 := by
      obtain ⟨⟨-, h⟩ | ⟨h, -⟩ | ⟨-, h⟩, -⟩ := h
      · exact h
      · exact absurd h h6
      · omega
    have hlen := h.2
    refine ⟨⟨h.1, ?_⟩, rfl, ?_⟩
    · simp only [length_append, length_take]
      omega
    · intro i hi
      have htake : i / 8 < (p.add.take 4).length := by
        rw [length_take]
        omega
      unfold toBits
      rw [getD_eq_getElem?_getD, getElem?_append_left htake, getElem?_take_of_lt (by omega),
        ← getD_eq_getElem?_getD]

theorem refPrefix_spec (sur : Surroundings) (source : Option RadixNode) {p : Prefix} (h : p.Ok) :
    refPrefix sur source p = some none ∨ ∃ q, refPrefix sur source p = some (some q) ∧ q.Ok ∧
      q.bitlen = p.bitlen ∧ Agree p.bitlen (toBits q.add) (toBits p.add) := by
  unfold refPrefix
  rw [if_neg (not_not.2 h.1)]
  cases source with
  | some s => exact .inr ⟨p, rfl, h, rfl, Agree.refl _ _⟩
  | none =>
    dsimp only
    split
    · exact .inr ⟨_, rfl, copied_spec h sur.junk⟩
    · exact .inl rfl

/-- The tree after an insertion: the prefix has its node, and the other prefixes have theirs. -/
structure Inserted (t : BitTree RadixNode) (p : Prefix) (place : Place) : Prop where
  struct : Struct place.root
  same : Same p place.node
  others : ∀ x, x.pfx ≠ none → (place.Other x ↔ x ∈ t.labels ∧ ¬ Same p x)

theorem Same.pfx_ne {p : Prefix} {a : RadixNode} (h : Same p a) : a.pfx ≠ none := by
  obtain ⟨k, hk, -⟩ := h.key
  intro hnone
  rw [Radix.key, hnone] at hk
  cases hk

theorem Inserted.of_new {t : BitTree RadixNode} {p : Prefix} {place : Place} (hs : Struct place.root)
    (hsame : Same p place.node) (hold : ∀ x, x.pfx ≠ none → (place.Other x ↔ x ∈ t.labels)) :
    Inserted t p place ∧ ∀ a ∈ t.labels, ¬ Same p a := by
  have hno : ∀ a ∈ t.labels, ¬ Same p a := by
    intro a ha h
    exact hs.other_not_same hsame ((hold a h.pfx_ne).2 ha) h
  refine ⟨⟨hs, hsame, fun x hx => ?_⟩, hno⟩
  rw [hold x hx]
  exact ⟨fun h => ⟨h, hno x h⟩, And.left⟩

/-- The prefix is in the tree already. -/
theorem Inserted.of_old {p : Prefix} {place : Place} {a : RadixNode} (hs : Struct place.root)
    (hsame : Same p place.node) (hbit : a.bit = place.node.bit) (hpfx : a.pfx = place.node.pfx)
    (ha : NodeOk a) : Inserted place.root p { place with node := a } := by
  refine ⟨hs.setNode hbit hpfx ha, ?_, fun x hx => ⟨fun h => ?_, ?_⟩⟩
  · unfold Same Matches Radix.key at *
    rw [hbit, hpfx]
    exact hsame
  · exact ⟨Place.mem_root.2 (Or.inr h), hs.other_not_same hsame h⟩
  · rintro ⟨h, hno⟩
    rcases Place.mem_root.1 h with rfl | h
    · exact absurd hsame hno
    · exact h

variable (radix : RadixTree)

/-- What the node of an inserted prefix is made from. -/
def Made (source : Option RadixNode) (p : Prefix) (a : RadixNode) (num : ℤ) : Prop :=
  (∃ b ∈ radix.head.labels, Same p b ∧ (a, num) = renumber radix source p.family b) ∨
    (∀ b ∈ radix.head.labels, ¬ Same p b) ∧
      ∃ q, (a, num) = newNode radix source p.family p.bitlen q

def Outcome (source : Option RadixNode) (p : Prefix)
    (r : Option (Result × RadixTree × Option Place)) : Prop :=
  r = some (.nomemory, radix, none) ∨
    ∃ place num active, r = some (.success, ⟨place.root, num, active⟩, some place) ∧
      Inserted radix.head p place ∧ Made radix source p place.node num ∧
      active + radix.head.labels.length = radix.numActive + place.root.labels.length

theorem goesRight_eq {addr : List (BitVec 8)} {bit : ℕ} (h : bit < RADIX_MAXBITS) :
    goesRight addr bit = toBits addr bit := by simp [goesRight, h, bitTest_eq]

theorem NodeOk.of_pfx {a : RadixNode} {q : Prefix} (hp : a.pfx = some q) (hq : q.Ok) (hb : q.bitlen = a.bit) : NodeOk a := by
  refine ⟨hb ▸ hq.le_maxbits, fun p hpa => ?_, fun hnone => ?_⟩
  · rw [hp] at hpa
    cases hpa
    exact ⟨hq.1, hb, hb ▸ hq.2⟩
  · rw [hp] at hnone
    cases hnone

theorem newNode_shape (source : Option RadixNode) (fam : Family) (bit : ℕ) (q : Prefix) :
    (newNode radix source fam bit q).1.bit = bit ∧ (newNode radix source fam bit q).1.pfx = some q := by
  cases source with
  | some s => exact ⟨rfl, rfl⟩
  | none => cases fam <;> exact ⟨rfl, rfl⟩

theorem renumber_shape (source : Option RadixNode) (fam : Family) (a : RadixNode) :
    (renumber radix source fam a).1.bit = a.bit ∧ (renumber radix source fam a).1.pfx = a.pfx := by
  unfold renumber
  cases source with
  | some s =>
    dsimp only
    split <;> split <;> exact ⟨rfl, rfl⟩
  | none =>
    cases fam with
    | unspec => exact ⟨rfl, rfl⟩
    | inet | inet6 => dsimp only; split <;> exact ⟨rfl, rfl⟩

/-- A source has data where it has an ordinal. -/
def SourceOk (source : Option RadixNode) : Prop :=
  ∀ s ∈ source, (s.num4 = -1 → s.data4 = none) ∧ (s.num6 = -1 → s.data6 = none)

theorem numberGlue_eq {source : Option RadixNode} (fam : Family) {a : RadixNode} {q : Prefix}
    (hsource : SourceOk source) (hp : a.pfx = some q) (h : a.num4 = -1 ∧ a.num6 = -1 ∧ a.data4 = none ∧ a.data6 = none) :
    numberGlue radix source fam a = newNode radix source fam a.bit q := by
  obtain ⟨bit, pfx, num4, num6, data4, data6⟩ := a
  obtain ⟨rfl, rfl, rfl, rfl⟩ := h
  subst hp
  unfold numberGlue newNode
  cases source with
  | none => cases fam <;> rfl
  | some s =>
    obtain ⟨h4, h6⟩ := hsource s rfl
    by_cases hs4 : s.num4 = -1 <;> by_cases hs6 : s.num6 = -1 <;> simp [rebase, hs4, hs6, h4, h6]

theorem Around.congr {c d : Bits} {path : List (Frame RadixNode)} {n : ℕ} (h : Around c path n)
    (hcd : Agree n c d) : Around d path n := ⟨h.hangs.congr hcd, h.forks, h.nodes⟩

theorem Below.congr {c d : Bits} {t : BitTree RadixNode} {n : ℕ} (h : Below c n t)
    (hcd : Agree n c d) : Below d n t := ⟨h.fits.congr hcd, h.forks, h.nodes⟩

/-- One step further down, on the side that the key tells. -/
theorem Around.cons {c : Bits} {path : List (Frame RadixNode)} {a : RadixNode} {side : Bool}
    {t other : BitTree RadixNode} (hp : Around c path a.bit) (ht : Below c a.bit (Patricia.join a side t other))
    (hside : c a.bit = side) : Around c (⟨a, side, other⟩ :: path) (a.bit + 1) := by
  obtain ⟨hforks, hft, hfo⟩ := forks_join.1 ht.forks
  have hsides : Carries RadixNode.bit key a c ∧
      Fits RadixNode.bit key (update c a.bit (!side)) (a.bit + 1) other := by
    cases side with
    | false =>
      obtain ⟨-, k, hck, hcar, hl, hr⟩ := ht.fits
      exact ⟨hcar.congr hck.symm, hr.congr (hck.symm.update_succ _)⟩
    | true =>
      obtain ⟨-, k, hck, hcar, hl, hr⟩ := ht.fits
      exact ⟨hcar.congr hck.symm, hl.congr (hck.symm.update_succ _)⟩
  refine ⟨⟨Nat.lt_succ_self _, hsides.1, hside, hsides.2, hp.hangs⟩, ?_, ?_⟩
  · intro f hf
    rcases mem_cons.1 hf with rfl | hf
    · exact ⟨fun hnone => (hforks hnone).2, hfo⟩
    · exact hp.forks f hf
  · intro f hf
    rcases mem_cons.1 hf with rfl | hf
    · exact ⟨ht.nodes _ (mem_join.2 (Or.inl rfl)), fun x hx => ht.nodes x (mem_join.2 (Or.inr (Or.inr hx)))⟩
    · exact hp.nodes f hf

theorem below_leaf {c : Bits} {n : ℕ} {a : RadixNode} {q : Prefix} (hn : n ≤ a.bit) (hq : a.pfx = some q)
    (ha : NodeOk a) (hcar : Agree a.bit (toBits q.add) c) : Below c n (.node a .nil .nil) := by
  refine ⟨Fits.leaf hn ?_, ⟨fun hnone => ?_, trivial, trivial⟩, ?_⟩
  · intro k hk
    rw [key, hq] at hk
    cases hk
    exact hcar
  · rw [hq] at hnone
    cases hnone
  · simpa using ha

section places
variable {t : BitTree RadixNode} {p q : Prefix} {a n : RadixNode} {k : Bits} {differ : ℕ}
  {path : List (Frame RadixNode)} {l r : BitTree RadixNode}

structure NewFor (p : Prefix) (n : RadixNode) (q : Prefix) : Prop where
  bit : n.bit = p.bitlen
  pfx : n.pfx = some q
  ok : NodeOk n
  agree : Agree p.bitlen (toBits q.add) (toBits p.add)

theorem NewFor.same (h : NewFor p n q) : Same p n := by
  refine ⟨h.bit, toBits q.add, ?_, ?_⟩
  · rw [key, h.pfx]
    rfl
  · rw [h.bit]
    exact h.agree

variable {side : Bool}

theorem inserted_below {other : BitTree RadixNode} (hn : NewFor p n q)
    (hp : Around (toBits p.add) path a.bit) (ht : Below (toBits p.add) a.bit (join a side .nil other))
    (hside : toBits p.add a.bit = side) (hlt : a.bit < p.bitlen) :
    Inserted (plug path (join a side .nil other)) p ⟨⟨a, side, other⟩ :: path, n, .nil, .nil⟩ ∧
      ∀ b ∈ (plug path (join a side .nil other)).labels, ¬ Same p b := by
  refine Inserted.of_new ?_ hn.same ?_
  · have hleaf : Below (toBits p.add) (a.bit + 1) (.node n .nil .nil) :=
      below_leaf (by rw [hn.bit]; omega) hn.pfx hn.ok (by rw [hn.bit]; exact hn.agree)
    exact (hp.cons ht hside).plug hleaf (by simp)
  · intro x _
    rw [mem_plug, mem_join]
    simp only [Place.Other, BitTree.labels_nil, not_mem_nil, false_or, mem_cons, exists_eq_or_imp]

theorem inserted_above {cur : BitTree RadixNode} (hn : NewFor p n q)
    (hp : Around k path p.bitlen) (ht : Below k (p.bitlen + 1) cur) (hk : Agree p.bitlen (toBits p.add) k)
    (hside : k p.bitlen = side) (place : Place) (hplace : place.path = path ∧ place.node = n)
    (hsub : BitTree.node place.node place.left place.right = join n side cur .nil) :
    Inserted (plug path cur) p place ∧ ∀ b ∈ (plug path cur).labels, ¬ Same p b := by
  obtain ⟨ppath, pnode, pl, pr⟩ := place
  obtain ⟨rfl, rfl⟩ := hplace
  refine Inserted.of_new ?_ hn.same ?_
  · have hcar : Carries RadixNode.bit key pnode k := by
      intro k' hk'
      rw [key, hn.pfx] at hk'
      cases hk'
      rw [hn.bit]
      exact hn.agree.trans hk
    have hjoin : Below k p.bitlen (join pnode side cur .nil) := by
      refine ⟨Fits.join hn.bit.ge hcar (by rw [hn.bit]; exact hside) (by rw [hn.bit]; exact ht.fits) trivial, ?_, ?_⟩
      · refine forks_join.2 ⟨fun hnone => ?_, ht.forks, trivial⟩
        rw [hn.pfx] at hnone
        cases hnone
      · intro x hx
        rcases mem_join.1 hx with rfl | hx | hx
        · exact hn.ok
        · exact ht.nodes x hx
        · simp at hx
    unfold Place.root
    rw [hsub]
    exact hp.plug hjoin (join_ne_nil _ _ _ _)
  · intro x _
    have hmem : x ∈ pl.labels ∨ x ∈ pr.labels ↔ x ∈ cur.labels := by
      cases side with
      | false | true =>
        cases hsub
        simp
    unfold Place.Other
    rw [mem_plug, ← or_assoc, hmem]

theorem inserted_beside {cur : BitTree RadixNode} (hn : NewFor p n q) (hne : cur ≠ .nil)
    (hp : Around (toBits p.add) path differ) (ht : Below k (differ + 1) cur)
    (hk : Agree differ (toBits p.add) k) (hother : toBits p.add differ ≠ k differ)
    (hside : toBits p.add differ = side) (hlt : differ < p.bitlen) (hmax : differ ≤ RADIX_MAXBITS) :
    Inserted (plug path cur) p ⟨⟨⟨differ, none, -1, -1, none, none⟩, side, cur⟩ :: path, n, .nil, .nil⟩ ∧
      ∀ b ∈ (plug path cur).labels, ¬ Same p b := by
  refine Inserted.of_new ?_ hn.same ?_
  · have hcur : Fits RadixNode.bit key (update (toBits p.add) differ (!side)) (differ + 1) cur := by
      apply ht.fits.congr
      apply Agree.succ (hk.symm.trans ((Agree.refl _ _).update _).symm)
      rw [update_self, ← hside]
      cases h1 : toBits p.add differ <;> cases h2 : k differ <;> simp_all
    have haround : Around (toBits p.add) (⟨⟨differ, none, -1, -1, none, none⟩, side, cur⟩ :: path) (differ + 1) := by
      refine ⟨⟨Nat.lt_succ_self _, fun k' hk' => (by cases hk'), hside, hcur, hp.hangs⟩, ?_, ?_⟩
      · intro f hf
        rcases mem_cons.1 hf with rfl | hf
        · exact ⟨fun _ => hne, ht.forks⟩
        · exact hp.forks f hf
      · intro f hf
        rcases mem_cons.1 hf with rfl | hf
        · exact ⟨⟨hmax, fun p hp => (by cases hp), fun _ => ⟨rfl, rfl, rfl, rfl⟩⟩, ht.nodes⟩
        · exact hp.nodes f hf
    have hleaf : Below (toBits p.add) (differ + 1) (.node n .nil .nil) :=
      below_leaf (by rw [hn.bit]; omega) hn.pfx hn.ok (by rw [hn.bit]; exact hn.agree)
    exact haround.plug hleaf (by simp)
  · intro x hx
    rw [mem_plug]
    simp only [Place.Other, BitTree.labels_nil, not_mem_nil, false_or, mem_cons, exists_eq_or_imp]
    constructor
    · rintro ((rfl | h) | h)
      · exact absurd rfl hx
      · exact .inl h
      · exact .inr h
    · rintro (h | h)
      · exact .inl (.inr h)
      · exact .inr h

/-- A branching point gets the prefix. -/
theorem inserted_glue {place : Place} (hn : NewFor p n q) (hp : Around (toBits p.add) place.path p.bitlen)
    (ht : Below (toBits p.add) p.bitlen (.node place.node place.left place.right))
    (hbit : place.node.bit = p.bitlen) (hnone : place.node.pfx = none) :
    Inserted place.root p { place with node := n } ∧ ∀ b ∈ place.root.labels, ¬ Same p b := by
  refine Inserted.of_new ?_ hn.same ?_
  · obtain ⟨hle, k, hk, hcar, hl, hr⟩ := ht.fits
    have hnb : n.bit = place.node.bit := hn.bit.trans hbit.symm
    refine hp.plug ⟨⟨hn.bit.ge, k, hk, ?_, by rw [hnb]; exact hl, by rw [hnb]; exact hr⟩, ?_, ?_⟩ (by simp)
    · intro k' hk'
      rw [key, hn.pfx] at hk'
      cases hk'
      rw [hn.bit]
      exact hn.agree.trans hk
    · refine ⟨fun h => ?_, ht.forks.2⟩
      rw [hn.pfx] at h
      cases h
    · intro x hx
      rcases BitTree.mem_labels_node.1 hx with rfl | hx
      · exact hn.ok
      · exact ht.nodes x (BitTree.mem_labels_node.2 (Or.inr hx))
  · intro x hx
    rw [Place.mem_root]
    constructor
    · exact .inr
    · rintro (rfl | h)
      · exact absurd hnone hx
      · exact h

end places

/-- What is known when the place for an insertion is found. -/
structure Found (radix : RadixTree) (p : Prefix) (k : Bits) (differ : ℕ) (start place : Place) : Prop where
  root : radix.head = start.root
  climbed : Climbed k differ start.path start.node start.left start.right place
  differ_le : differ ≤ p.bitlen
  agree : Agree differ (toBits p.add) k
  differs : differ < start.node.bit → differ < p.bitlen → toBits p.add differ ≠ k differ
  sides : ∀ f ∈ start.path, f.right = goesRight p.add f.label.bit
  stops : Stops p.add p.bitlen start

section found
variable {sur : Surroundings} {radix : RadixTree} {source : Option RadixNode} {p q : Prefix} {n : RadixNode}
  {test : List (BitVec 8)} {differ : ℕ} {start place : Place}

theorem Found.head (h : Found radix p (toBits test) differ start place) : radix.head = place.root := by
  rw [h.root, h.climbed.root]
  rfl

theorem Found.around (h : Found radix p (toBits test) differ start place) :
    Around (toBits p.add) place.path differ := h.climbed.around.congr h.agree.symm

theorem Found.struct (h : Found radix p (toBits test) differ start place) : Struct place.root :=
  h.climbed.around.plug (n := differ) ⟨h.climbed.below.fits.mono h.climbed.differ_le, h.climbed.below.forks,
    h.climbed.below.nodes⟩ (by simp)

theorem Found.parts (h : Found radix p (toBits test) differ start place) (hlt : differ < p.bitlen)
    (hbit : differ < place.node.bit) : toBits p.add differ ≠ toBits test differ := by
  apply h.differs _ hlt
  rcases h.climbed.origin with heq | ⟨f, -, hf, hfa, -⟩
  · rw [heq] at hbit
    exact hbit
  · rw [hf] at hbit
    omega

/-- Where the prefix leads on below the place, there is nothing. -/
theorem Found.free (hp : p.Ok) (h : Found radix p (toBits test) differ start place)
    (hbit : place.node.bit = differ) (hlt : differ < p.bitlen) :
    (if goesRight p.add place.node.bit then place.right else place.left) = .nil := by
  rcases h.climbed.origin with heq | ⟨f, hmem, hf, hfa, hk⟩
  · rcases h.stops with ⟨hle, -⟩ | hnil
    · rw [heq] at hbit
      dsimp only at hbit
      omega
    · rw [heq]
      exact hnil
  rw [hf] at hbit
  have hmax : f.label.bit < RADIX_MAXBITS := lt_of_lt_of_le (by omega) hp.le_maxbits
  have hside := h.sides f hmem
  rw [goesRight_eq hmax, ← hk, hbit] at hside
  exact absurd hside.symm (h.differs (by omega) hlt)

theorem Found.same (h : Found radix p (toBits test) differ start place) (hd : differ = p.bitlen)
    (hbit : place.node.bit = p.bitlen) (hpfx : place.node.pfx ≠ none) : Same p place.node := by
  obtain ⟨q, hq⟩ := Option.ne_none_iff_exists'.1 hpfx
  have hkey : key place.node = some (toBits q.add) := by
    rw [key, hq]
    rfl
  obtain ⟨-, k, hk, hcar, -⟩ := h.climbed.below.fits
  refine ⟨hbit, toBits q.add, hkey, ?_⟩
  have hpk : Agree place.node.bit (toBits p.add) (toBits test) := by
    rw [hbit, ← hd]
    exact h.agree
  exact (hcar _ hkey).trans (hk.symm.trans hpk.symm)

theorem newFor_newNode (radix : RadixTree) (source : Option RadixNode) {q : Prefix} (hq : q.Ok) (hlen : q.bitlen = p.bitlen)
    (hagree : Agree p.bitlen (toBits q.add) (toBits p.add)) (fam : Family) :
    NewFor p (newNode radix source fam p.bitlen q).1 q := by
  obtain ⟨hbit, hpfx⟩ := newNode_shape radix source fam p.bitlen q
  exact ⟨hbit, hpfx, NodeOk.of_pfx hpfx hq (hlen.trans hbit.symm), hagree⟩

theorem outcome_new {q : Prefix} {place : Place} {num active : ℤ}
    (h : Inserted radix.head p place ∧ ∀ b ∈ radix.head.labels, ¬ Same p b)
    (hmade : (place.node, num) = newNode radix source p.family p.bitlen q)
    (hcount : active + radix.head.labels.length = radix.numActive + place.root.labels.length) :
    Outcome radix source p (inserted place num active) :=
  Or.inr ⟨place, num, active, rfl, h.1, Or.inr ⟨h.2, q, hmade⟩, hcount⟩

theorem length_setNode (place : Place) (n : RadixNode) :
    (Place.root { place with node := n }).labels.length = place.root.labels.length := by
  have hlen := length_plug place.path (.node n place.left place.right) (.node place.node place.left place.right)
  simp only [BitTree.labels, length_cons] at hlen
  exact Nat.add_right_cancel hlen

/-- An entry for a prefix whose position is in the tree. -/
theorem Found.outcome_here (hp : p.Ok) (hsource : SourceOk source)
    (h : Found radix p (toBits test) differ start place) (hd : differ = p.bitlen) (hbit : place.node.bit = p.bitlen) :
    Outcome radix source p (insertAt sur radix source p test differ place) := by
  unfold insertAt
  rw [if_pos ⟨hd, hbit⟩]
  have haround := h.around
  have hbelow : Below (toBits p.add) p.bitlen (.node place.node place.left place.right) := by
    have := h.climbed.below
    rw [hbit] at this
    exact this.congr (hd ▸ h.agree.symm)
  split
  · next q hq =>
      have hsame := h.same hd hbit (by rw [hq]; simp)
      obtain ⟨hb, hpx⟩ := renumber_shape radix source p.family place.node
      have hnode : NodeOk place.node := hbelow.nodes _ (BitTree.mem_labels_node.2 (Or.inl rfl))
      have hok : NodeOk (renumber radix source p.family place.node).1 := by
        refine ⟨by rw [hb]; exact hnode.bit_le, ?_, ?_⟩
        · rw [hb, hpx]
          exact hnode.pfx
        · intro hnone
          rw [hpx, hq] at hnone
          cases hnone
      refine .inr ⟨_, _, _, rfl, ?_, Or.inl ⟨place.node, ?_, hsame, rfl⟩, ?_⟩
      · rw [h.head]
        exact Inserted.of_old h.struct hsame hb hpx hok
      · rw [h.head]
        exact Place.mem_root.2 (Or.inl rfl)
      · rw [h.head]
        exact congrArg (fun n : ℕ => radix.numActive + n) (length_setNode place _).symm
  next hnone =>
    have hglue := (hbelow.nodes _ (BitTree.mem_labels_node.2 (Or.inl rfl))).glue hnone
    rcases refPrefix_spec sur source hp with href | ⟨q, href, hq, hlen, hagree⟩
    · rw [href]
      exact .inl rfl
    rw [href]
    dsimp only
    rw [if_pos hglue]
    rw [numberGlue_eq radix p.family (a := { place.node with pfx := some q }) hsource rfl hglue]
    have hnew := newFor_newNode radix source hq hlen hagree p.family
    rw [hbit]
    rw [hd] at haround
    have hins := inserted_glue hnew haround hbelow hbit hnone
    rw [← h.head] at hins
    refine outcome_new hins rfl ?_
    rw [h.head]
    exact congrArg (fun n : ℕ => radix.numActive + n) (length_setNode place _).symm

/-- The structure of the tree at the place, as seen by the prefix. -/
theorem Found.below (h : Found radix p (toBits test) differ start place) {n : ℕ} (hn : n ≤ place.node.bit) :
    Below (toBits test) n (.node place.node place.left place.right) :=
  ⟨h.climbed.below.fits.mono hn, h.climbed.below.forks, h.climbed.below.nodes⟩

theorem Found.outcome_below (hp : p.Ok) (h : Found radix p (toBits test) differ start place)
    (hn : NewFor p (newNode radix source p.family p.bitlen q).1 q) (hbit : place.node.bit = differ)
    (hlt : differ < p.bitlen) (side : Bool) (other : BitTree RadixNode) (hside : goesRight p.add place.node.bit = side)
    (hsub : BitTree.node place.node place.left place.right = join place.node side .nil other) :
    Outcome radix source p (inserted
      ⟨⟨place.node, side, other⟩ :: place.path, (newNode radix source p.family p.bitlen q).1, .nil, .nil⟩
      (newNode radix source p.family p.bitlen q).2 (radix.numActive + 1)) := by
  have hmax : place.node.bit < RADIX_MAXBITS := lt_of_lt_of_le (by omega) hp.le_maxbits
  rw [goesRight_eq hmax] at hside
  have hbelow : Below (toBits p.add) place.node.bit (join place.node side .nil other) := by
    rw [← hsub]
    exact (h.below le_rfl).congr (hbit ▸ h.agree.symm)
  have hins := inserted_below hn (hbit ▸ h.around) hbelow hside (by omega)
  have hhead : radix.head = plug place.path (join place.node side .nil other) := by
    rw [h.head, ← hsub]
    rfl
  rw [← hhead] at hins
  refine outcome_new hins rfl ?_
  have hlen := length_plug place.path (join place.node side (.node (newNode radix source p.family p.bitlen q).1 .nil .nil) other)
    (join place.node side .nil other)
  rw [length_join, length_join, ← hhead] at hlen
  simp only [BitTree.labels, length_cons, length_nil, append_nil] at hlen
  have hcount : (Place.root ⟨⟨place.node, side, other⟩ :: place.path, (newNode radix source p.family p.bitlen q).1, .nil,
      .nil⟩).labels.length = radix.head.labels.length + 1 := by
    show (plug place.path (join place.node side (.node (newNode radix source p.family p.bitlen q).1 .nil .nil) other)).labels.length = _
    omega
  omega

theorem Found.outcome_above (hn : NewFor p (newNode radix source p.family p.bitlen q).1 q)
    (h : Found radix p (toBits test) differ start place) (hd : differ = p.bitlen)
    (hlt : p.bitlen < place.node.bit) (side : Bool) (hside : goesRight test p.bitlen = side) (l r : BitTree RadixNode)
    (hsub : BitTree.node (newNode radix source p.family p.bitlen q).1 l r =
      join (newNode radix source p.family p.bitlen q).1 side (.node place.node place.left place.right) .nil) :
    Outcome radix source p (inserted ⟨place.path, (newNode radix source p.family p.bitlen q).1, l, r⟩
      (newNode radix source p.family p.bitlen q).2 (radix.numActive + 1)) := by
  have hnode := h.climbed.below.nodes _ (BitTree.mem_labels_node.2 (Or.inl rfl))
  rw [goesRight_eq (lt_of_lt_of_le hlt hnode.bit_le)] at hside
  have hins := inserted_above hn (hd ▸ h.climbed.around) (h.below hlt) (hd ▸ h.agree) hside
    ⟨place.path, _, l, r⟩ ⟨rfl, rfl⟩ hsub
  have hhead : radix.head = plug place.path (.node place.node place.left place.right) := h.head
  rw [← hhead] at hins
  refine outcome_new hins rfl ?_
  have hlen := length_plug place.path (BitTree.node (newNode radix source p.family p.bitlen q).1 l r)
    (.node place.node place.left place.right)
  rw [← hhead, hsub, length_join, ← hsub] at hlen
  simp only [BitTree.labels_nil, length_nil] at hlen
  have hcount : (Place.root ⟨place.path, (newNode radix source p.family p.bitlen q).1, l, r⟩).labels.length =
      radix.head.labels.length + 1 := by
    show (plug place.path (.node (newNode radix source p.family p.bitlen q).1 l r)).labels.length = _
    omega
  omega

theorem insertAt_spec (sur : Surroundings) (hp : p.Ok) (hsource : SourceOk source)
    (h : Found radix p (toBits test) differ start place) :
    Outcome radix source p (insertAt sur radix source p test differ place) := by
  by_cases hhere : differ = p.bitlen ∧ place.node.bit = p.bitlen
  · exact h.outcome_here hp hsource hhere.1 hhere.2
  unfold insertAt
  rw [if_neg hhere]
  have hle := h.differ_le
  have hge := h.climbed.differ_le
  split
  · exact .inl rfl
  split
  · exact .inl rfl
  rcases refPrefix_spec sur source hp with href | ⟨q, href, hq, hlen, hagree⟩
  · rw [href]
    exact .inl rfl
  rw [href]
  dsimp only
  have hnew := newFor_newNode radix source hq hlen hagree p.family
  by_cases hbit : place.node.bit = differ
  · have hlt : differ < p.bitlen := by
      rcases Nat.lt_or_ge differ p.bitlen with hlt | hge'
      · exact hlt
      · exact absurd ⟨by omega, by omega⟩ hhere
    have hfree := h.free hp hbit hlt
    rw [if_pos hbit]
    cases hside : goesRight p.add place.node.bit with
    | true =>
      rw [hside, if_pos rfl] at hfree
      rw [if_pos rfl, if_pos hfree]
      exact h.outcome_below hp hnew hbit hlt true place.left hside (by rw [hfree]; rfl)
    | false =>
      rw [hside, if_neg (by simp)] at hfree
      rw [if_neg (by simp), if_pos hfree]
      exact h.outcome_below hp hnew hbit hlt false place.right hside (by rw [hfree]; rfl)
  rw [if_neg hbit]
  by_cases hd : p.bitlen = differ
  · rw [if_pos hd]
    cases hside : goesRight test p.bitlen with
    | true =>
      rw [if_pos rfl]
      exact h.outcome_above hnew hd.symm (by omega) true hside _ _ rfl
    | false =>
      rw [if_neg (by simp)]
      exact h.outcome_above hnew hd.symm (by omega) false hside _ _ rfl
  rw [if_neg hd]
  have hlt : differ < p.bitlen := by omega
  have hmax := hp.le_maxbits
  have hins := inserted_beside hnew (by simp) h.around (h.below (show differ + 1 ≤ place.node.bit by omega)) h.agree
    (h.parts hlt (by omega)) (goesRight_eq (by omega)).symm hlt (by omega)
  have hhead : radix.head = plug place.path (.node place.node place.left place.right) := h.head
  rw [← hhead] at hins
  refine outcome_new hins rfl ?_
  have hlen := length_plug place.path (join ⟨differ, none, -1, -1, none, none⟩ (goesRight p.add differ)
    (.node (newNode radix source p.family p.bitlen q).1 .nil .nil) (.node place.node place.left place.right))
    (.node place.node place.left place.right)
  rw [← hhead, length_join] at hlen
  simp only [BitTree.labels, length_cons, length_nil, append_nil] at hlen
  have hcount : (Place.root ⟨⟨⟨differ, none, -1, -1, none, none⟩, goesRight p.add differ,
      .node place.node place.left place.right⟩ :: place.path, (newNode radix source p.family p.bitlen q).1, .nil,
      .nil⟩).labels.length = radix.head.labels.length + 2 := by
    show (plug place.path (join ⟨differ, none, -1, -1, none, none⟩ (goesRight p.add differ)
      (.node (newNode radix source p.family p.bitlen q).1 .nil .nil) (.node place.node place.left place.right))).labels.length = _
    omega
  omega

end found

theorem insert_found {radix : RadixTree} (p : Prefix) (h : Struct radix.head) (hne : radix.head ≠ .nil) :
    ∃ start t, descend p.add p.bitlen radix.head [] none = some start ∧ start.node.pfx = some t ∧
      let checkBit := if start.node.bit < p.bitlen then start.node.bit else p.bitlen
      let differ := differBit p.add t.add checkBit
      Found radix p (toBits t.add) differ start (climb differ start.path start.node start.left start.right) := by
  obtain ⟨start, new, hdesc, hpath, hroot, hsides, hstops⟩ := descend_spec p.add p.bitlen radix.head [] none hne
  rw [append_nil] at hpath
  rw [plug] at hroot
  have hstruct : Struct start.root := by
    rw [hroot]
    exact h
  obtain ⟨t, ht⟩ := Option.ne_none_iff_exists'.1 (descend_pfx hstruct hstops)
  have hkey : key start.node = some (toBits t.add) := by
    rw [key, ht]
    rfl
  obtain ⟨haround, hbelow⟩ := Struct.at_key hstruct hkey
  refine ⟨start, t, hdesc, ht, ?_⟩
  generalize hcheck : (if start.node.bit < p.bitlen then start.node.bit else p.bitlen) = check
  obtain ⟨hdle, hagree, hdiff⟩ := differBit_spec p.add t.add check
  have hmin : check ≤ start.node.bit ∧ check ≤ p.bitlen ∧ (check = start.node.bit ∨ check = p.bitlen) := by
    split at hcheck <;> omega
  refine ⟨hroot.symm, ?_, by omega, hagree, ?_, ?_, hstops⟩
  · exact climb_spec _ _ _ _ (by omega) haround hbelow
  · intro h1 h2
    exact hdiff (by omega)
  · rw [hpath]
    exact hsides

theorem insert_spec (sur : Surroundings) (radix : RadixTree) {source : Option RadixNode} {p : Prefix} (hp : p.Ok)
    (hsource : SourceOk source) (h : Struct radix.head) : Outcome radix source p (insert sur radix source p) := by
  unfold insert
  split
  · next hnil =>
      split
      · exact .inl rfl
      rcases refPrefix_spec sur source hp with href | ⟨q, href, hq, hlen, hagree⟩
      · rw [href]
        exact .inl rfl
      rw [href]
      have hnew := newFor_newNode radix source hq hlen hagree p.family
      have hleaf : Below (toBits p.add) 0 (.node (newNode radix source p.family p.bitlen q).1 .nil .nil) :=
        below_leaf (Nat.zero_le _) hnew.pfx hnew.ok (by rw [hnew.bit]; exact hnew.agree)
      refine outcome_new (Inserted.of_new ?_ hnew.same ?_) rfl ?_
      · have haround : Around (toBits p.add) [] 0 := ⟨trivial, by simp, by simp⟩
        exact haround.plug hleaf (by simp)
      · intro x _
        simp [Place.Other, hnil]
      · rw [hnil]
        exact add_zero _
  next hne =>
    obtain ⟨start, t, hdesc, ht, hfound⟩ := insert_found p h hne
    rw [hdesc]
    dsimp only
    rw [ht]
    exact insertAt_spec sur hp hsource hfound

end Bind9.Radix
