import Mathlib.Data.List.Basic
import Mathlib.Data.List.Count
import Mathlib.Tactic
import Bind9.RbtdbNode

/-! # The invariant of the zone database

`Inv` is what holds between two calls.  The part that makes the cleaning of a node safe is
`NodeInv.old`: a header that stands above another one is either not newer than the least open
version, or some open version keeps a dirty changed record of the node.  Every changed record holds
a reference (`Inv.pins`), so a node without references has none of the second kind.

`cleanup_spec` is the loop of `closeversion` over its cleanup list. -/

namespace Bind9.Rbtdb

open List
open Function

/-- Above all the serials given out: `next_serial` before it wraps. -/
def Db.limit (db : Db) : ℕ := if db.nextSerial = 0 then 2 ^ 32 else db.nextSerial

def Db.records (db : Db) : List Changed :=
  db.openVersions.flatMap Version.changed ++ db.futureVersion.elim [] Version.changed

/-- The records of one node. -/
def count (n : ℕ) (rs : List Changed) : ℕ := rs.countP (fun r => decide (r.node = n))

/-- The references that changed records hold. -/
def Db.pinned (db : Db) (n : ℕ) : ℕ := count n db.records

/-- A node between two calls.  Only the versions of `db` matter here. -/
structure NodeInv (db : Db) (n : ℕ) (node : Node) : Prop where
  ok : DataOk node.data
  bounded : ∀ h, Stands node.data h → h.serial < db.limit
  live : ∀ h, Stands node.data h → h.ignore = false →
    h.serial ≤ db.currentSerial ∨ ∃ w, db.futureVersion = some w ∧ h.serial = w.serial
  own : ∀ w, db.futureVersion = some w → ∀ h, Stands node.data h → h.serial = w.serial →
    h.ignore = false ∧ n ∈ w.changed.map Changed.node
  old : ∀ h, Above node.data h → h.ignore = false → h.serial ≤ db.currentSerial →
    h.serial ≤ db.leastSerial ∨ ∃ v ∈ db.openVersions, h.serial ≤ v.serial ∧ ⟨n, true⟩ ∈ v.changed
  new : ∀ w, db.futureVersion = some w → ∀ h, Above node.data h → h.serial = w.serial → ⟨n, true⟩ ∈ w.changed

/-- The database between two calls. -/
structure Inv (db : Db) : Prop where
  sorted : db.openVersions.Pairwise (fun u v => v.serial < u.serial)
  current : ∃ v vs, db.openVersions = v :: vs ∧ v.serial = db.currentSerial
  least : ∃ vs v, db.openVersions = vs ++ [v] ∧ v.serial = db.leastSerial ∧ v.changed = []
  readers : ∀ v ∈ db.openVersions, v.writer = false ∧ 0 < v.references
  writer : ∀ w, db.futureVersion = some w →
    w.writer = true ∧ 0 < w.references ∧ db.currentSerial < w.serial ∧ w.serial + 1 = db.limit
  below : db.currentSerial < db.limit
  wraps : db.nextSerial < 2 ^ 32
  pins : ∀ n, db.pinned n ≤ (db.nodes n).references
  nodes : ∀ n, NodeInv db n (db.nodes n)

/-! ### Records -/

theorem count_append (n : ℕ) (rs rs' : List Changed) : count n (rs ++ rs') = count n rs + count n rs' :=
  countP_append

theorem count_cons (n : ℕ) (r : Changed) (rs : List Changed) :
    count n (r :: rs) = count n rs + if r.node = n then 1 else 0 := by
  rw [count, countP_cons]
  simp [count]

variable {n : ℕ}

theorem count_eq_zero {rs : List Changed} (h : count n rs = 0) : n ∉ rs.map Changed.node := by
  intro hm
  obtain ⟨r, hr, hn⟩ := mem_map.1 hm
  exact countP_eq_zero.1 h r hr (by simpa using hn)

theorem count_filter (n : ℕ) : ∀ rs : List Changed,
    count n (rs.filter (fun r => !r.dirty)) + count n (rs.filter (fun r => r.dirty)) = count n rs
  | [] => rfl
  | r :: rs => by
    have ih := count_filter n rs
    cases hd : r.dirty with
    | false =>
      rw [filter_cons_of_pos (by simp [hd]), filter_cons_of_neg (by simp [hd]), count_cons, count_cons]
      omega
    | true =>
      rw [filter_cons_of_neg (by simp [hd]), filter_cons_of_pos (by simp [hd]), count_cons, count_cons]
      omega

variable {db : Db}

theorem pinned_eq_zero (h : db.pinned n = 0) : (∀ v ∈ db.openVersions, n ∉ v.changed.map Changed.node) ∧
      ∀ w, db.futureVersion = some w → n ∉ w.changed.map Changed.node := by
  have hno := count_eq_zero h
  rw [Db.records, map_append] at hno
  refine ⟨fun v hv hm => hno (mem_append_left _ ?_), fun w hw hm => hno (mem_append_right _ ?_)⟩
  · obtain ⟨r, hr, hn⟩ := mem_map.1 hm
    exact mem_map.2 ⟨r, mem_flatMap.2 ⟨v, hv, hr⟩, hn⟩
  · rw [hw]
    exact hm

/-! ### One node -/

theorem NodeInv.trim {node node' : Node} (hi : NodeInv db n node) (hd : DataOk node'.data)
    (ht : Trimmed node.data node'.data) : NodeInv db n node' where
  ok := hd
  bounded h hs := hi.bounded h (ht.stands hs)
  live h hs := hi.live h (ht.stands hs)
  own w hw h hs := hi.own w hw h (ht.stands hs)
  old h ha := hi.old h (ht.above ha)
  new w hw h ha := hi.new w hw h (ht.above ha)

theorem NodeInv.of_data {node node' : Node} (hi : NodeInv db n node) (hd : node'.data = node.data) : NodeInv db n node' := by
  refine hi.trim (hd ▸ hi.ok) (fun c hc => ⟨c, ?_, Sublist.refl _⟩)
  rw [← hd]
  exact hc

theorem NodeInv.above_le {node : Node} (hi : NodeInv db n node) (hp : db.pinned n = 0)
    {h : Header} (ha : Above node.data h) (hl : h.ignore = false) : h.serial ≤ db.leastSerial := by
  obtain ⟨hopen, hfuture⟩ := pinned_eq_zero hp
  cases hi.live h ha.stands hl with
  | inl hcur =>
    cases hi.old h ha hl hcur with
    | inl hle => exact hle
    | inr hv =>
      obtain ⟨v, hv, -, hr⟩ := hv
      exact absurd (mem_map_of_mem hr) (hopen v hv)
  | inr hw =>
    obtain ⟨w, hw, hs⟩ := hw
    exact absurd (mem_map_of_mem (hi.new w hw h ha hs)) (hfuture w hw)

theorem decrementReference_spec {node : Node} (hi : NodeInv db n node) (hp : db.pinned n < node.references) :
    ∃ node', decrementReference db.leastSerial node = .ok node' ∧ NodeInv db n node' ∧
      node'.references + 1 = node.references ∧ ∀ v, db.leastSerial ≤ v → view v node'.data = view v node.data := by
  rw [decrementReference, insist_true (by simpa using Nat.zero_lt_of_lt hp), ok_bind]
  have hi' : NodeInv db n { node with references := node.references - 1 } := hi.of_data rfl
  by_cases hclean : node.references - 1 = 0 ∧ node.dirty = true
  · rw [if_pos hclean]
    obtain ⟨node', hrun, hd, htr, href, hview⟩ := clean_spec hi'.ok
      (fun h ha hl => hi'.above_le (by omega) ha hl)
    exact ⟨node', hrun, hi'.trim hd htr, by rw [href]; simp only; omega, hview⟩
  · rw [if_neg hclean]
    exact ⟨_, rfl, hi', by simp only; omega, fun v _ => rfl⟩

/-- The loop of `closeversion` over the cleanup list.  `ready` is what holds of a node before
`prepare`, which must make the invariant of the new versions hold. -/
theorem cleanup_spec (db : Db) (prepare : Node → Node) (ready : ℕ → Node → Prop) (visible : ℕ → Prop)
    (hready : ∀ n node, NodeInv db n node → ready n node)
    (hprep : ∀ n node, ready n node → NodeInv db n (prepare node) ∧ (prepare node).references = node.references ∧
      ∀ v, visible v → view v (prepare node).data = view v node.data) :
    ∀ (rs : List Changed) (nodes : ℕ → Node), (∀ n, db.pinned n + count n rs ≤ (nodes n).references) →
      (∀ n, ready n (nodes n)) → (∀ n, n ∉ rs.map Changed.node → NodeInv db n (nodes n)) →
      ∃ nodes', cleanup db.leastSerial prepare rs nodes = .ok nodes' ∧ (∀ n, NodeInv db n (nodes' n)) ∧
        (∀ n, (nodes' n).references + count n rs = (nodes n).references) ∧
        ∀ n v, db.leastSerial ≤ v → visible v → view v (nodes' n).data = view v (nodes n).data
  | [], nodes, _, _, hi => ⟨nodes, rfl, fun n => hi n not_mem_nil, fun n => rfl, fun _ _ _ _ => rfl⟩
  | r :: rs, nodes, hp, hr, hi => by
    obtain ⟨hi1, href1, hview1⟩ := hprep r.node _ (hr r.node)
    have hpr := hp r.node
    rw [count_cons, if_pos rfl] at hpr
    obtain ⟨node', hrun, hi2, href2, hview2⟩ := decrementReference_spec hi1 (by rw [href1]; omega)
    have hcount : ∀ n, (update nodes r.node node' n).references + (if r.node = n then 1 else 0) =
        (nodes n).references := by
      intro n
      rw [update_apply]
      by_cases hn : n = r.node
      · rw [if_pos hn, if_pos hn.symm, hn, href2, href1]
      · rw [if_neg hn, if_neg (Ne.symm hn)]
        rfl
    obtain ⟨nodes', hrun', hi', href', hview'⟩ := cleanup_spec db prepare ready visible hready hprep rs
      (update nodes r.node node')
      (fun n => by
        have h1 := hp n
        have h2 := hcount n
        rw [count_cons] at h1
        omega)
      (fun n => by
        rw [update_apply]
        split
        · next hn => exact hn ▸ hready _ _ hi2
        · exact hr n)
      (fun n hn => by
        rw [update_apply]
        split
        · next hn => exact hn ▸ hi2
        · next hne => exact hi n (fun hm => (mem_cons.1 hm).elim hne hn))
    refine ⟨nodes', ?_, hi', fun n => ?_, fun n v hv hvis => ?_⟩
    · rw [cleanup, hrun, ok_bind]
      exact hrun'
    · have h1 := href' n
      have h2 := hcount n
      rw [count_cons]
      omega
    · rw [hview' n v hv hvis, update_apply]
      split
      · next hn => rw [hn, hview2 v hv, hview1 v hvis]
      · rfl

end Bind9.Rbtdb
