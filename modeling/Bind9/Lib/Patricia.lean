import Mathlib.Data.List.Basic
import Mathlib.Logic.Function.Basic
import Mathlib.Tactic

/-! # Prefix trees over bit strings

Binary trees whose nodes test one bit each, as routing tables and address lists use them.  A key
is an infinite bit string; a node stands for the keys that share its first `bit` bits.  Nodes may
carry a key of their own (`key a = some k`) or be mere branching points (`key a = none`).

* `Fits c n t`: the tree `t` may hang at a place where the first `n` bits are those of `c`.  Bits
  tested grow downwards, and everything below a node lies on the side of its bit there.
* `Hangs c p n`: the path `p` leads to a place where the first `n` bits are those of `c`;
  `Hangs.fits_plug` puts a fitting tree there.
* `mem_plug` and `not_matches_of_other` locate the nodes that match a key: all of them are on the
  path of the key. -/

namespace Patricia

open List
open Function

/-- A key, from its first bit on. -/
abbrev Bits := ℕ → Bool

/-- Two keys have the same first `n` bits. -/
def Agree (n : ℕ) (a b : Bits) : Prop := ∀ i < n, a i = b i

namespace Agree
variable {m n : ℕ} {a b c : Bits}

theorem refl (n : ℕ) (a : Bits) : Agree n a a := fun _ _ => rfl

theorem symm (h : Agree n a b) : Agree n b a := fun i hi => (h i hi).symm

theorem trans (h : Agree n a b) (h' : Agree n b c) : Agree n a c :=
  fun i hi => (h i hi).trans (h' i hi)

theorem mono (h : Agree n a b) (hm : m ≤ n) : Agree m a b := fun i hi => h i (by omega)

theorem succ (h : Agree n a b) (hn : a n = b n) : Agree (n + 1) a b := by
  intro i hi
  rcases Nat.lt_succ_iff_lt_or_eq.1 hi with h' | rfl
  · exact h i h'
  · exact hn

theorem update (h : Agree n a b) (v : Bool) : Agree n (Function.update a n v) b := by
  intro i hi
  rw [update_of_ne (by omega)]
  exact h i hi

theorem update_succ (h : Agree n a b) (v : Bool) : Agree (n + 1) (Function.update a n v) (Function.update b n v) := by
  apply succ
  · exact (h.update v).trans ((refl n b).update v).symm
  · simp

end Agree

/-- A binary tree with labelled inner nodes. -/
inductive BitTree (α : Type*) where
  | nil
  | node (a : α) (l r : BitTree α)
deriving DecidableEq, Repr

namespace BitTree
variable {α : Type*}

/-- The labels, from the root on. -/
def labels : BitTree α → List α
  | nil => []
  | node a l r => a :: (l.labels ++ r.labels)

@[simp] theorem labels_nil : (nil : BitTree α).labels = [] := rfl

@[simp] theorem mem_labels_node {x a : α} {l r : BitTree α} :
    x ∈ (node a l r).labels ↔ x = a ∨ x ∈ l.labels ∨ x ∈ r.labels := by simp [labels]

/-- Other labels on the same tree. -/
def map {β : Type*} (f : α → β) : BitTree α → BitTree β
  | nil => nil
  | node a l r => node (f a) (l.map f) (r.map f)

variable {β : Type*} (f : α → β)

theorem labels_map : ∀ t : BitTree α, (t.map f).labels = t.labels.map f
  | nil => rfl
  | node a l r => by simp [map, labels, labels_map l, labels_map r]
@[simp] theorem map_eq_nil {t : BitTree α} : t.map f = nil ↔ t = nil := by
  cases t <;> simp [map]

theorem map_eq_self {f : α → α} : ∀ {t : BitTree α}, (∀ a ∈ t.labels, f a = a) → t.map f = t
  | nil, _ => rfl
  | node a l r, h => by
    rw [map, h a (mem_labels_node.2 (Or.inl rfl)), map_eq_self fun x hx => h x (mem_labels_node.2 (Or.inr (Or.inl hx))),
      map_eq_self fun x hx => h x (mem_labels_node.2 (Or.inr (Or.inr hx)))]
end BitTree

/-- A step down from a node: its label, whether the step goes right, and the tree on the other
side. -/
structure Frame (α : Type*) where
  label : α
  right : Bool
  other : BitTree α
deriving DecidableEq, Repr

/-- Two trees below a node, the first one on the side told. -/
def join {α : Type*} (a : α) (right : Bool) (t other : BitTree α) : BitTree α :=
  if right then .node a other t else .node a t other

def Frame.map {α β : Type*} (f : α → β) (s : Frame α) : Frame β := ⟨f s.label, s.right, s.other.map f⟩

/-- The tree around a place; the innermost step comes first. -/
def plug {α : Type*} : List (Frame α) → BitTree α → BitTree α
  | [], t => t
  | f :: p, t => plug p (join f.label f.right t f.other)

theorem map_join {α β : Type*} (f : α → β) (a : α) (right : Bool) (t other : BitTree α) :
    (join a right t other).map f = join (f a) right (t.map f) (other.map f) := by
  cases right <;> rfl

theorem map_plug {α β : Type*} (f : α → β) : ∀ (p : List (Frame α)) (t : BitTree α),
    (plug p t).map f = plug (p.map (Frame.map f)) (t.map f)
  | [], _ => rfl
  | s :: p, t => by
    rw [plug, map_plug f p, map_join]
    rfl
variable {α : Type*}

@[simp] theorem mem_join {x a : α} {right : Bool} {t other : BitTree α} :
    x ∈ (join a right t other).labels ↔ x = a ∨ x ∈ t.labels ∨ x ∈ other.labels := by
  cases right <;> simp [join, or_comm]

theorem mem_plug {x : α} : ∀ {p : List (Frame α)} {t : BitTree α}, x ∈ (plug p t).labels ↔
    x ∈ t.labels ∨ ∃ f ∈ p, x = f.label ∨ x ∈ f.other.labels
  | [], t => by simp [plug]
  | f :: p, t => by
    rw [plug, mem_plug]
    simp only [mem_join, mem_cons, exists_eq_or_imp]
    constructor
    · rintro ((h | h | h) | h)
      · exact .inr (.inl (.inl h))
      · exact .inl h
      · exact .inr (.inl (.inr h))
      · exact .inr (.inr h)
    · rintro (h | (h | h) | h)
      · exact .inl (.inr (.inl h))
      · exact .inl (.inl h)
      · exact .inl (.inr (.inr h))
      · exact .inr h
theorem length_join (a : α) (right : Bool) (t other : BitTree α) :
    (join a right t other).labels.length = t.labels.length + other.labels.length + 1 := by
  cases right with
  | false => simp [join, BitTree.labels]
  | true =>
    simp [join, BitTree.labels]
    omega

/-- Another tree in the place of one changes the number of labels by the difference. -/
theorem length_plug : ∀ (p : List (Frame α)) (t u : BitTree α),
    (plug p t).labels.length + u.labels.length = (plug p u).labels.length + t.labels.length
  | [], t, u => Nat.add_comm _ _
  | f :: p, t, u => by
    have ih := length_plug p (join f.label f.right t f.other) (join f.label f.right u f.other)
    rw [length_join, length_join] at ih
    rw [plug, plug]
    omega

section invariant
variable (bit : α → ℕ) (key : α → Option Bits)

/-- The label's own key, if it has one, starts like `c`. -/
def Carries (a : α) (c : Bits) : Prop := ∀ k ∈ key a, Agree (bit a) k c

/-- The label stands for the key `x`. -/
def Matches (x : Bits) (a : α) : Prop := ∃ k ∈ key a, Agree (bit a) k x

/-- The tree may hang where the first `n` bits are those of `c`. -/
def Fits : Bits → ℕ → BitTree α → Prop
  | _, _, .nil => True
  | c, n, .node a l r => n ≤ bit a ∧ ∃ k, Agree n c k ∧ Carries bit key a k ∧
      Fits (Function.update k (bit a) false) (bit a + 1) l ∧
      Fits (Function.update k (bit a) true) (bit a + 1) r

/-- The path leads to a place where the first `n` bits are those of `c`. -/
def Hangs (c : Bits) : List (Frame α) → ℕ → Prop
  | [], _ => True
  | f :: p, n => bit f.label < n ∧ Carries bit key f.label c ∧ c (bit f.label) = f.right ∧
      Fits bit key (Function.update c (bit f.label) (!f.right)) (bit f.label + 1) f.other ∧
      Hangs c p (bit f.label)

variable {bit key} {c d x : Bits} {m n : ℕ}

theorem Carries.congr {a : α} (h : Carries bit key a c) (hcd : Agree (bit a) c d) :
    Carries bit key a d := fun k hk => (h k hk).trans hcd

theorem Fits.congr : ∀ {t : BitTree α} {c d : Bits} {n : ℕ}, Fits bit key c n t → Agree n c d →
    Fits bit key d n t
  | .nil, _, _, _, _, _ => trivial
  | .node _ _ _, _, _, _, ⟨hn, k, hk, h⟩, hcd => ⟨hn, k, hcd.symm.trans hk, h⟩
theorem Fits.mono : ∀ {t : BitTree α} {c : Bits} {m n : ℕ}, Fits bit key c n t → m ≤ n →
    Fits bit key c m t
  | .nil, _, _, _, _, _ => trivial
  | .node _ _ _, _, _, _, ⟨hn, k, hk, h⟩, hm => ⟨le_trans hm hn, k, hk.mono hm, h⟩
/-- Both sides of a node with a key, seen from a key that starts like it. -/
theorem Fits.children {a : α} {l r : BitTree α} {k0 : Bits} (h : Fits bit key c n (.node a l r))
    (hk0 : key a = some k0) (hx : Agree (bit a) k0 x) : Fits bit key (Function.update x (bit a) false) (bit a + 1) l ∧
      Fits bit key (Function.update x (bit a) true) (bit a + 1) r := by
  obtain ⟨-, k, -, hcar, hl, hr⟩ := h
  have hkx : Agree (bit a) k x := (hcar k0 hk0).symm.trans hx
  exact ⟨hl.congr (hkx.update_succ false), hr.congr (hkx.update_succ true)⟩

theorem Fits.join {a : α} {right : Bool} {t other : BitTree α} (hn : n ≤ bit a)
    (hcar : Carries bit key a c) (hside : c (bit a) = right) (ht : Fits bit key c (bit a + 1) t)
    (hother : Fits bit key (Function.update c (bit a) (!right)) (bit a + 1) other) :
    Fits bit key c n (join a right t other) := by
  have hself : Function.update c (bit a) right = c := by rw [← hside, update_eq_self]
  cases right with
  | false => exact ⟨hn, c, Agree.refl _ _, hcar, by rw [hself]; exact ht, hother⟩
  | true => exact ⟨hn, c, Agree.refl _ _, hcar, hother, by rw [hself]; exact ht⟩

theorem Fits.leaf {a : α} (hn : n ≤ bit a) (hcar : Carries bit key a c) :
    Fits bit key c n (.node a .nil .nil) := ⟨hn, c, Agree.refl _ _, hcar, trivial, trivial⟩

theorem Hangs.fits_plug : ∀ {p : List (Frame α)} {n : ℕ} {t : BitTree α}, Hangs bit key c p n →
    Fits bit key c n t → Fits bit key c 0 (plug p t)
  | [], _, _, _, ht => ht.mono (Nat.zero_le _)
  | f :: p, _, _, ⟨hn, hcar, hside, hother, hp⟩, ht => by
    rw [plug]
    exact Hangs.fits_plug hp (Fits.join le_rfl hcar hside (ht.mono hn) hother)
theorem Hangs.mono {p : List (Frame α)} (h : Hangs bit key c p m) (hmn : m ≤ n) : Hangs bit key c p n := by
  cases p with
  | nil => trivial
  | cons f p => exact ⟨lt_of_lt_of_le h.1 hmn, h.2⟩

/-- A path to a place is a path for every key with the same bits up to there. -/
theorem Hangs.congr : ∀ {p : List (Frame α)} {n : ℕ}, Hangs bit key c p n → Agree n c d →
    Hangs bit key d p n
  | [], _, _, _ => trivial
  | f :: p, n, ⟨hn, hcar, hside, hother, hp⟩, hcd => by
    have hb : Agree (bit f.label) c d := hcd.mono (le_of_lt hn)
    refine ⟨hn, hcar.congr hb, by rw [← hside]; exact (hcd _ hn).symm, ?_, hp.congr hb⟩
    exact hother.congr (hb.update_succ _)

/-- One step further down, on the side of a key that the node matches. -/
theorem Hangs.cons {p : List (Frame α)} {a : α} {l r : BitTree α} {k0 : Bits}
    (hp : Hangs bit key x p n) (ht : Fits bit key x n (.node a l r)) (hk0 : key a = some k0) (hx : Agree (bit a) k0 x) :
    Hangs bit key x (⟨a, x (bit a), if x (bit a) then l else r⟩ :: p) (bit a + 1) ∧
      Fits bit key x (bit a + 1) (if x (bit a) then r else l) := by
  obtain ⟨hl, hr⟩ := ht.children hk0 hx
  have hcar : Carries bit key a x := by
    intro k hk
    rw [hk0] at hk
    cases hk
    exact hx
  have hself : Function.update x (bit a) (x (bit a)) = x := update_eq_self _ _
  cases hxa : x (bit a) with
  | false =>
    rw [hxa] at hself
    rw [hself] at hl
    exact ⟨⟨Nat.lt_succ_self _, hcar, hxa, hr, hp.mono ht.1⟩, hl⟩
  | true =>
    rw [hxa] at hself
    rw [hself] at hr
    exact ⟨⟨Nat.lt_succ_self _, hcar, hxa, hl, hp.mono ht.1⟩, hr⟩

/-- Taking a tree apart at a place. -/
theorem Fits.unplug : ∀ {p : List (Frame α)} {t : BitTree α}, Fits bit key c 0 (plug p t) →
    ∃ d n, Hangs bit key d p n ∧ Fits bit key d n t
  | [], _, h => ⟨c, 0, trivial, h⟩
  | f :: p, t, h => by
    obtain ⟨d, n, hp, ht⟩ := Fits.unplug (p := p) h
    have step : ∀ k, n ≤ bit f.label → Agree n d k → Carries bit key f.label k →
        Fits bit key (Function.update k (bit f.label) f.right) (bit f.label + 1) t →
        Fits bit key (Function.update k (bit f.label) (!f.right)) (bit f.label + 1) f.other →
        Hangs bit key (Function.update k (bit f.label) f.right) (f :: p) (bit f.label + 1) ∧
          Fits bit key (Function.update k (bit f.label) f.right) (bit f.label + 1) t := by
      intro k hn hk hcar hl hr
      have hku : Agree (bit f.label) k (Function.update k (bit f.label) f.right) :=
        ((Agree.refl _ k).update _).symm
      refine ⟨⟨Nat.lt_succ_self _, hcar.congr hku, by simp, by simpa using hr, ?_⟩, hl⟩
      exact (hp.congr (hk.trans (hku.mono hn))).mono hn
    cases hright : f.right with
    | false =>
      rw [hright] at step
      simp only [hright] at ht
      obtain ⟨hn, k, hk, hcar, hl, hr⟩ := ht
      exact ⟨_, _, step k hn hk hcar hl hr⟩
    | true =>
      rw [hright] at step
      simp only [hright] at ht
      obtain ⟨hn, k, hk, hcar, hl, hr⟩ := ht
      exact ⟨_, _, step k hn hk hcar hr hl⟩

/-- Every label of a fitting tree is deep enough and starts like `c`. -/
theorem Fits.of_mem : ∀ {t : BitTree α} {c : Bits} {n : ℕ} {a : α}, Fits bit key c n t →
    a ∈ t.labels → n ≤ bit a ∧ ∀ k ∈ key a, Agree n k c
  | .node b l r, c, n, a, ⟨hn, k, hk, hcar, hl, hr⟩, ha => by
    have below : ∀ {v : Bool}, (bit b + 1 ≤ bit a ∧
        ∀ k' ∈ key a, Agree (bit b + 1) k' (Function.update k (bit b) v)) →
          n ≤ bit a ∧ ∀ k' ∈ key a, Agree n k' c := by
      rintro v ⟨hab, hka⟩
      refine ⟨by omega, fun k' hk' => ?_⟩
      have h1 : Agree n k' (Function.update k (bit b) v) := (hka k' hk').mono (by omega)
      have h2 : Agree n (Function.update k (bit b) v) k := ((Agree.refl _ k).update v).mono hn
      exact h1.trans (h2.trans hk.symm)
    rcases BitTree.mem_labels_node.1 ha with rfl | ha | ha
    · exact ⟨hn, fun k' hk' => ((hcar k' hk').mono hn).trans hk.symm⟩
    · exact below (Fits.of_mem hl ha)
    · exact below (Fits.of_mem hr ha)

theorem not_matches_of_other {t : BitTree α} {a : α} {b : ℕ} {v : Bool}
    (h : Fits bit key (Function.update c b v) (b + 1) t) (ha : a ∈ t.labels) (hx : x b ≠ v) : ¬ Matches bit key x a := by
  rintro ⟨k, hk, hkx⟩
  obtain ⟨hb, hc⟩ := h.of_mem ha
  apply hx
  rw [← hkx b (by omega), hc k hk b (by omega)]
  simp

/-- A key has at most one label of each length. -/
theorem Fits.pairwise : ∀ {t : BitTree α} {c : Bits} {n : ℕ}, Fits bit key c n t →
    t.labels.Pairwise (fun a b => bit a = bit b → ∀ x, Matches bit key x a → ¬ Matches bit key x b)
  | .nil, _, _, _ => Pairwise.nil
  | .node a l r, _, _, ⟨_, k, _, _, hl, hr⟩ => by
    refine Pairwise.cons ?_ (pairwise_append.2 ⟨hl.pairwise, hr.pairwise, ?_⟩)
    · intro b hb hbit
      rcases mem_append.1 hb with hb | hb
      · have := (hl.of_mem hb).1
        omega
      · have := (hr.of_mem hb).1
        omega
    · intro b hb b' hb' _ x hx hx'
      cases hxa : x (bit a) with
      | false => exact not_matches_of_other hr hb' (by simp [hxa]) hx'
      | true => exact not_matches_of_other hl hb (by simp [hxa]) hx

theorem Fits.eq_of_matches {t : BitTree α} {a b : α} (h : Fits bit key c n t) (ha : a ∈ t.labels)
    (hb : b ∈ t.labels) (hbit : bit a = bit b) (hxa : Matches bit key x a) (hxb : Matches bit key x b) : a = b := by
  by_contra hne
  have hsymm : Std.Symm (fun a b => bit a = bit b → ∀ x, Matches bit key x a → ¬ Matches bit key x b) :=
    ⟨fun _ _ hab hba x hxb hxa => hab hba.symm x hxa hxb⟩
  exact h.pairwise.forall ha hb hne hbit x hxa hxb

/-- Off the path of a key nothing matches it, and on the path everything is shorter. -/
theorem Hangs.of_mem : ∀ {p : List (Frame α)} {n : ℕ}, Hangs bit key x p n → ∀ f ∈ p,
    bit f.label < n ∧ ∀ a ∈ f.other.labels, ¬ Matches bit key x a
  | f :: p, n, ⟨hn, _, hside, hother, hp⟩, g, hg => by
    rcases mem_cons.1 hg with rfl | hg
    · refine ⟨hn, fun a ha => not_matches_of_other hother ha ?_⟩
      rw [hside]
      cases g.right <;> simp
    · obtain ⟨hlt, hno⟩ := hp.of_mem g hg
      exact ⟨by omega, hno⟩

end invariant

end Patricia
