import Bind9.RpzKey

/-! # The policy tree and the prefixes in it

The invariant of a tree that holds `rpz-ip` entries only (`Inv`), and what the operations do to the
prefixes with data (`Has`):

* `searchFrom_lookup`: a search without `create` finds the longest prefix with data.
* `searchFrom_insert`: a search with `create` adds exactly its target, unless a node is hung on the
  wrong side of a new parent (`wrongSide`).
* `deleteAt_spec`: a deletion removes exactly the node that was found. -/

namespace Bind9.Rpz

open Patricia
open List
open Function

/-! ### The invariant -/

/-- The tests of a policy tree: a node stands for the first `bits` bits of its key. -/
abbrev nodeKey (a : CidrNode) : Option Bits := some a.ip.toBits

abbrev ipFlags : Flags := ⟨true, true, false, false, false⟩

/-- A node as `new_node` makes it, of at most `N` bits: nothing is set behind its prefix. -/
def CidrNode.Shape (N : ℕ) (a : CidrNode) : Prop := a.bits ≤ N ∧ a.ip.masked a.bits = a.ip

/-- The summary flags are right, and there is nothing but `rpz-ip` data. -/
def FlagsOk : BitTree CidrNode → Prop
  | .nil => True
  | .node a l r => a.flags = ⟨a.flags.ipData || (treeFlags l).ip || (treeFlags r).ip, a.flags.ipData,
      false, false, false⟩ ∧ FlagsOk l ∧ FlagsOk r

/-- The invariant of a tree of prefixes of at most `N` bits. -/
structure Inv (N : ℕ) (t : BitTree CidrNode) : Prop where
  fits : ∀ c, Fits CidrNode.bits nodeKey c 0 t
  shape : ∀ a ∈ t.labels, a.Shape N
  flags : FlagsOk t

/-- The tree holds data for the prefix. -/
def Has (t : BitTree CidrNode) (ip : Key) (bits : ℕ) : Prop :=
  ∃ a ∈ t.labels, a.ip = ip ∧ a.bits = bits ∧ a.flags.ipData = true

/-- The steps of a path, and what hangs beside them, hold data for the prefix. -/
def PathHas (p : List (Frame CidrNode)) (ip : Key) (bits : ℕ) : Prop :=
  ∃ f ∈ p, (f.label.ip = ip ∧ f.label.bits = bits ∧ f.label.flags.ipData = true) ∨ Has f.other ip bits

variable {a : CidrNode} {l r t other root : BitTree CidrNode} {ip : Key} {bits : ℕ}

theorem has_node : Has (.node a l r) ip bits ↔
      (a.ip = ip ∧ a.bits = bits ∧ a.flags.ipData = true) ∨ Has l ip bits ∨ Has r ip bits := by
  unfold Has
  simp only [BitTree.mem_labels_node]
  constructor
  · rintro ⟨b, rfl | hb | hb, h⟩
    · exact .inl h
    · exact .inr (.inl ⟨b, hb, h⟩)
    · exact .inr (.inr ⟨b, hb, h⟩)
  · rintro (h | ⟨b, hb, h⟩ | ⟨b, hb, h⟩)
    · exact ⟨a, Or.inl rfl, h⟩
    · exact ⟨b, Or.inr (Or.inl hb), h⟩
    · exact ⟨b, Or.inr (Or.inr hb), h⟩

@[simp] theorem has_nil : ¬ Has .nil ip bits := by simp [Has]

theorem has_join {right : Bool} : Has (join a right t other) ip bits ↔
      (a.ip = ip ∧ a.bits = bits ∧ a.flags.ipData = true) ∨ Has t ip bits ∨ Has other ip bits := by
  cases right with
  | false => exact has_node
  | true =>
    rw [join, if_pos rfl, has_node]
    constructor
    · rintro (h | h | h)
      · exact .inl h
      · exact .inr (.inr h)
      · exact .inr (.inl h)
    · rintro (h | h | h)
      · exact .inl h
      · exact .inr (.inr h)
      · exact .inr (.inl h)

theorem has_plug : ∀ {p : List (Frame CidrNode)} {t : BitTree CidrNode} {ip : Key} {bits : ℕ},
    Has (plug p t) ip bits ↔ Has t ip bits ∨ PathHas p ip bits
  | [], t, _, _ => by simp [plug, PathHas]
  | f :: p, t, ip, bits => by
    rw [plug, has_plug, has_join]
    unfold PathHas
    simp only [mem_cons, exists_eq_or_imp]
    constructor
    · rintro ((h | h | h) | h)
      · exact .inr (.inl (.inl h))
      · exact .inl h
      · exact .inr (.inl (.inr h))
      · exact .inr (.inr h)
    · rintro (h | (h | h) | h)
      · exact .inl (.inr (.inl h))
      · exact .inl (.inl h)
      · exact .inl (.inr (.inr h))
      · exact .inr h
/-! ### Flags -/

theorem flagsOk_join {right : Bool} : FlagsOk (join a right t other) ↔
      a.flags = ⟨a.flags.ipData || (treeFlags t).ip || (treeFlags other).ip, a.flags.ipData,
        false, false, false⟩ ∧ FlagsOk t ∧ FlagsOk other := by
  cases right with
  | false => exact Iff.rfl
  | true =>
    rw [join, if_pos rfl, FlagsOk, Bool.or_assoc, Bool.or_comm (treeFlags other).ip, ← Bool.or_assoc,
      and_comm (a := FlagsOk other)]

theorem FlagsOk.of_plug : ∀ {p : List (Frame CidrNode)} {t : BitTree CidrNode}, FlagsOk (plug p t) →
    FlagsOk t
  | [], _, h => h
  | _ :: p, _, h => (flagsOk_join.1 (FlagsOk.of_plug (p := p) h)).2.1

theorem treeFlags_join (a : CidrNode) (right : Bool) (t other : BitTree CidrNode) :
    treeFlags (join a right t other) = a.flags := by cases right <;> rfl

theorem FlagsOk.replace : ∀ {p : List (Frame CidrNode)} {t t' : BitTree CidrNode}, FlagsOk (plug p t) →
    FlagsOk t' → (treeFlags t').ip = (treeFlags t).ip → FlagsOk (plug p t')
  | [], _, _, _, h', _ => h'
  | f :: p, t, t', h, h', hip => by
    obtain ⟨hf, -, hother⟩ := flagsOk_join.1 (FlagsOk.of_plug (p := p) h)
    refine FlagsOk.replace (p := p) h ?_ ?_
    · rw [flagsOk_join, hip]
      exact ⟨hf, h', hother⟩
    · rw [treeFlags_join, treeFlags_join]

theorem mark_flags (h : FlagsOk (.node a l r)) : (a.mark ipFlags).flags = ipFlags := by
  unfold CidrNode.mark Flags.union
  rw [h.1]
  simp

theorem FlagsOk.mark : ∀ {p : List (Frame CidrNode)} {t t' : BitTree CidrNode}, FlagsOk (plug p t) →
    FlagsOk t' → (treeFlags t').ip = true → FlagsOk (plug (markPath ipFlags p) t')
  | [], _, _, _, h', _ => h'
  | f :: p, t, t', h, h', hip => by
    obtain ⟨hf, -, hother⟩ := flagsOk_join.1 (FlagsOk.of_plug (p := p) h)
    refine FlagsOk.mark (p := p) h ?_ ?_
    · rw [flagsOk_join]
      refine ⟨?_, h', hother⟩
      simp only [CidrNode.mark, Flags.union, Flags.without, Flags.data]
      rw [hf]
      simp [hip]
    · rw [treeFlags_join]
      simp [CidrNode.mark, Flags.union, Flags.without, Flags.data]

theorem FlagsOk.ip_iff : ∀ {t : BitTree CidrNode}, FlagsOk t →
    ((treeFlags t).ip = true ↔ ∃ a ∈ t.labels, a.flags.ipData = true)
  | .nil, _ => by simp [treeFlags, Flags.none]
  | .node a l r, ⟨ha, hl, hr⟩ => by
    have hip : a.flags.ip = (a.flags.ipData || (treeFlags l).ip || (treeFlags r).ip) := by
      conv_lhs => rw [ha]
    rw [treeFlags, hip, Bool.or_eq_true, Bool.or_eq_true, FlagsOk.ip_iff hl, FlagsOk.ip_iff hr]
    simp only [BitTree.mem_labels_node]
    constructor
    · rintro ((h | ⟨b, hb, h⟩) | ⟨b, hb, h⟩)
      · exact ⟨a, Or.inl rfl, h⟩
      · exact ⟨b, Or.inr (Or.inl hb), h⟩
      · exact ⟨b, Or.inr (Or.inr hb), h⟩
    · rintro ⟨b, rfl | hb | hb, h⟩
      · exact .inl (.inl h)
      · exact .inl (.inr ⟨b, hb, h⟩)
      · exact .inr ⟨b, hb, h⟩

theorem FlagsOk.meets_iff (h : FlagsOk t) : (treeFlags t).meets ipFlags = (treeFlags t).ip := by
  cases t with
  | nil => rfl
  | node a l r =>
    have ha := h.1
    simp only [treeFlags]
    rw [ha]
    cases a.flags.ipData <;> simp [Flags.meets]

variable {N : ℕ}

/-! ### Paths -/

theorem hangs_markPath {c : Bits} : ∀ {p : List (Frame CidrNode)} {n : ℕ},
    Hangs CidrNode.bits nodeKey c p n → Hangs CidrNode.bits nodeKey c (markPath ipFlags p) n
  | [], _, _ => trivial
  | _ :: _, _, ⟨hn, hcar, hside, hother, hp⟩ => ⟨hn, hcar, hside, hother, hangs_markPath hp⟩
variable {p p' : List (Frame CidrNode)}

theorem pathHas_markPath : PathHas (markPath ipFlags p) ip bits ↔ PathHas p ip bits := by
  unfold PathHas markPath
  simp only [mem_map, exists_exists_and_eq_and]
  have hdata : ∀ f : Frame CidrNode,
      (f.label.mark (ipFlags.without .data)).flags.ipData = f.label.flags.ipData := by
    intro f
    simp [CidrNode.mark, Flags.union, Flags.without, Flags.data]
  simp only [hdata]
  exact Iff.rfl

theorem shape_markPath {t' : BitTree CidrNode} (h : ∀ a ∈ (plug p t).labels, a.Shape N) (h' : ∀ a ∈ t'.labels, a.Shape N) :
    ∀ a ∈ (plug (markPath ipFlags p) t').labels, a.Shape N := by
  intro a ha
  rcases mem_plug.1 ha with ha | ⟨f, hf, hfa⟩
  · exact h' a ha
  obtain ⟨g, hg, rfl⟩ := mem_map.1 hf
  rcases hfa with rfl | hfa
  · exact h g.label (mem_plug.2 (Or.inr ⟨g, hg, Or.inl rfl⟩))
  · exact h a (mem_plug.2 (Or.inr ⟨g, hg, Or.inr hfa⟩))

/-! ### Lookup -/

section search
variable {sur : Surroundings} {tgt : Target}

/-- A node with data whose prefix covers the target. -/
def Covers (tgt : Target) (a : CidrNode) : Prop :=
  a.flags.ipData = true ∧ a.bits ≤ tgt.bits ∧ Agree a.bits a.ip.toBits tgt.ip.toBits

theorem Target.flags_ip (h : tgt.type = .ip) : tgt.flags = ipFlags := by
  unfold Target.flags getFlags
  rw [h]
  rfl

theorem Target.dataFlag_ip (h : tgt.type = .ip) : tgt.dataFlag = ⟨false, true, false, false, false⟩ := by
  unfold Target.dataFlag
  rw [Target.flags_ip h]
  rfl

theorem meets_dataFlag (a : CidrNode) : a.flags.meets ⟨false, true, false, false, false⟩ = a.flags.ipData := by
  simp [Flags.meets]

variable {n : ℕ}

theorem not_covers_of_mem {b : CidrNode} (hfits : Fits CidrNode.bits nodeKey tgt.ip.toBits n (.node a l r))
    (hb : b ∈ l.labels ∨ b ∈ r.labels)
    (ha : tgt.bits ≤ a.bits ∨ ∃ d < a.bits, d < tgt.bits ∧ a.ip.toBits d ≠ tgt.ip.toBits d) : ¬ Covers tgt b := by
  obtain ⟨-, k, -, hcar, hl, hr⟩ := hfits
  have hmem : a.bits + 1 ≤ b.bits ∧ ∃ v, Agree (a.bits + 1) b.ip.toBits (update k a.bits v) := by
    rcases hb with hb | hb
    · exact ⟨(hl.of_mem hb).1, false, (hl.of_mem hb).2 _ rfl⟩
    · exact ⟨(hr.of_mem hb).1, true, (hr.of_mem hb).2 _ rfl⟩
  obtain ⟨hlt, v, hagree⟩ := hmem
  rintro ⟨-, hle, hcov⟩
  rcases ha with ha | ⟨d, hda, hdt, hne⟩
  · omega
  apply hne
  have h1 : b.ip.toBits d = k d := by
    rw [hagree d (by omega), update_of_ne (by omega)]
  have h2 : a.ip.toBits d = k d := hcar _ rfl d hda
  rw [h2, ← h1]
  exact hcov d (by omega)

/-- The place is in the tree, and the key of the target leads there. -/
structure PlaceOf (tgt : Target) (root : BitTree CidrNode) (place : Place) : Prop where
  root_eq : plug place.path (.node place.node place.left place.right) = root
  hangs : Hangs CidrNode.bits nodeKey tgt.ip.toBits place.path place.node.bits
  fits : Fits CidrNode.bits nodeKey tgt.ip.toBits place.node.bits (.node place.node place.left place.right)

/-- What a search without `create` returns from the tree `cur`: what it had before, or the longest
covering node of `cur`. -/
def LookedUp (tgt : Target) (cur : BitTree CidrNode) (path : List (Frame CidrNode)) (findResult : Result)
    (found : Option Place) (f : Found) : Prop :=
  f.root = plug path cur ∧
    ((∀ b ∈ cur.labels, ¬ Covers tgt b) ∧ f.result = findResult ∧ f.found = found ∨
      ∃ place, PlaceOf tgt (plug path cur) place ∧ place.node ∈ cur.labels ∧ Covers tgt place.node ∧
        (∀ b ∈ cur.labels, Covers tgt b → b.bits ≤ place.node.bits) ∧ f.found = some place ∧
        f.result = if place.node.bits = tgt.bits then .success else .partialmatch)

theorem LookedUp.down {path : List (Frame CidrNode)}
    {findResult : Result} {found : Option Place} {f : Found} {s : Bool} {child : BitTree CidrNode}
    (hplace : PlaceOf tgt (plug path (.node a l r)) ⟨path, a, l, r⟩)
    (hagree : Agree a.bits a.ip.toBits tgt.ip.toBits) (hlt : a.bits < tgt.bits)
    (htree : join a s child other = .node a l r) (hchild : ∀ b ∈ child.labels, a.bits < b.bits)
    (hother : ∀ b ∈ other.labels, ¬ Covers tgt b) (h : LookedUp tgt child (⟨a, s, other⟩ :: path)
      (if a.flags.ipData = true then .partialmatch else findResult)
      (if a.flags.ipData = true then some ⟨path, a, l, r⟩ else found) f) :
    LookedUp tgt (.node a l r) path findResult found f := by
  obtain ⟨hroot, hcase⟩ := h
  have hplug : plug (⟨a, s, other⟩ :: path) child = plug path (.node a l r) := by rw [plug, htree]
  have hmem : ∀ b, b ∈ (BitTree.node a l r).labels ↔ b = a ∨ b ∈ child.labels ∨ b ∈ other.labels := by
    intro b
    rw [← htree, mem_join]
  rw [hplug] at hroot hcase
  refine ⟨hroot, ?_⟩
  rcases hcase with ⟨hno, hres, hfound⟩ | ⟨place, hof, hin, hcov, hmax, hfound, hres⟩
  · cases hdata : a.flags.ipData with
    | false =>
      rw [hdata] at hres hfound
      refine .inl ⟨fun b hb hcov => ?_, hres, hfound⟩
      rcases (hmem b).1 hb with rfl | hb | hb
      · rw [hcov.1] at hdata
        cases hdata
      · exact hno b hb hcov
      · exact hother b hb hcov
    | true =>
      rw [hdata] at hres hfound
      refine .inr ⟨_, hplace, by simp, ⟨hdata, le_of_lt hlt, hagree⟩, fun b hb hcov => ?_, hfound, ?_⟩
      · rcases (hmem b).1 hb with rfl | hb | hb
        · exact le_rfl
        · exact absurd hcov (hno b hb)
        · exact absurd hcov (hother b hb)
      · rw [hres, if_neg (show ¬ a.bits = tgt.bits by omega)]
        rfl
  refine .inr ⟨place, hof, (hmem _).2 (Or.inr (Or.inl hin)), hcov, fun b hb hb' => ?_, hfound, hres⟩
  rcases (hmem b).1 hb with rfl | hb | hb
  · exact le_of_lt (hchild _ hin)
  · exact hmax b hb hb'
  · exact absurd hb' (hother b hb)

theorem searchFrom_lookup (hty : tgt.type = .ip) (hcreate : tgt.create = false) (hN : N ≤ 128) (hbits : tgt.bits ≤ N) :
    ∀ (cur : BitTree CidrNode) (path : List (Frame CidrNode)) (findResult : Result)
      (found : Option Place) (reads : List ℕ) (n : ℕ), Hangs CidrNode.bits nodeKey tgt.ip.toBits path n →
      Fits CidrNode.bits nodeKey tgt.ip.toBits n cur → (∀ a ∈ cur.labels, a.Shape N) → FlagsOk cur →
      LookedUp tgt cur path findResult found (searchFrom sur tgt cur path findResult found reads) := by
  intro cur
  induction cur with
  | nil =>
    intro path findResult found reads n _ _ _ _
    rw [searchFrom]
    simp only [hcreate, Bool.not_false, if_true]
    exact ⟨rfl, Or.inl ⟨by simp, rfl, rfl⟩⟩
  | node a l r ihl ihr =>
    intro path findResult found reads n hhangs hfits hshape hflags
    have hna := hfits.1
    have ha128 : a.bits ≤ 128 := (hshape a (by simp)).1.trans hN
    obtain ⟨hd1, hd2, hagree, hdiff, -⟩ := diffKeys_spec sur.beyond tgt.ip a.ip (hbits.trans hN) ha128
    have nothing : (∀ b ∈ (BitTree.node a l r).labels, ¬ Covers tgt b) →
        ∀ reads, LookedUp tgt (.node a l r) path findResult found
          ⟨findResult, found, plug path (.node a l r), reads⟩ :=
      fun h _ => ⟨rfl, Or.inl ⟨h, rfl, rfl⟩⟩
    rw [searchFrom]
    simp only [hcreate, Target.flags_ip hty, Target.dataFlag_ip hty, meets_dataFlag, Bool.not_false,
      Bool.and_true, Bool.not_eq_true', Bool.false_eq_true, if_false, if_true]
    split
    · -- no data below here
      next hm =>
        apply nothing
        intro b hb hcov
        have hip : (treeFlags (.node a l r)).ip = true := hflags.ip_iff.2 ⟨b, hb, hcov.1⟩
        rw [← hflags.meets_iff] at hip
        simp only [treeFlags] at hip
        rw [hip] at hm
        cases hm
    generalize hdef : (diffKeys sur.beyond tgt.ip tgt.bits a.ip a.bits) = d at *
    have hplace : Agree a.bits a.ip.toBits tgt.ip.toBits →
        PlaceOf tgt (plug path (.node a l r)) ⟨path, a, l, r⟩ := by
      intro h
      refine ⟨rfl, hhangs.mono hna, le_rfl, a.ip.toBits, h.symm, ?_, hfits.children rfl (Agree.refl _ _)⟩
      intro _ hk
      cases hk
      exact Agree.refl _ _
    split
    next hdt =>
      split
      next hab =>
        split
        next hdata =>
          -- an exact match with data
          have hcov : Covers tgt a := ⟨hdata, by omega, by rw [← hab, ← hdt]; exact hagree.symm⟩
          refine ⟨rfl, Or.inr ⟨⟨path, a, l, r⟩, hplace hcov.2.2, by simp, hcov, ?_, rfl, ?_⟩⟩
          · intro b _ hb
            rw [← hab]
            exact hb.2.1
          · simp [hab]
        next hdata =>
          apply nothing
          intro b hb hcov
          rcases BitTree.mem_labels_node.1 hb with rfl | hb
          · exact hdata hcov.1
          · exact not_covers_of_mem hfits hb (Or.inl (by omega)) hcov
      next hab =>
        apply nothing
        intro b hb hcov
        rcases BitTree.mem_labels_node.1 hb with rfl | hb
        · have := hcov.2.1
          omega
        · exact not_covers_of_mem hfits hb (Or.inl (by omega)) hcov
    next hdt =>
      split
      next hda =>
        -- the node covers the target: go down on the target's side
        rw [hda] at hagree
        obtain ⟨hpush, hchild⟩ := hhangs.cons hfits rfl hagree.symm
        have hside : ipBit sur.beyond tgt.ip d.1 = tgt.ip.toBits a.bits := by
          rw [ipBit_eq _ _ (by omega), hda]
        rw [hside]
        have hlt : a.bits < tgt.bits := by omega
        cases hx : tgt.ip.toBits a.bits with
        | false =>
          rw [hx] at hpush hchild
          refine LookedUp.down (hplace hagree.symm) hagree.symm hlt (s := false) rfl ?_ ?_
            (ihl _ _ _ _ _ hpush hchild (fun b hb => hshape b (by simp [hb])) hflags.2.1)
          · intro b hb
            exact (hchild.of_mem hb).1
          · intro b hb hcov
            exact (hpush.of_mem _ mem_cons_self).2 b hb ⟨_, rfl, hcov.2.2⟩
        | true =>
          rw [hx] at hpush hchild
          refine LookedUp.down (hplace hagree.symm) hagree.symm hlt (s := true) rfl ?_ ?_
            (ihr _ _ _ _ _ hpush hchild (fun b hb => hshape b (by simp [hb])) hflags.2.2)
          · intro b hb
            exact (hchild.of_mem hb).1
          · intro b hb hcov
            exact (hpush.of_mem _ mem_cons_self).2 b hb ⟨_, rfl, hcov.2.2⟩
      next hda =>
        apply nothing
        have hne := hdiff (by omega) (by omega)
        intro b hb hcov
        rcases BitTree.mem_labels_node.1 hb with rfl | hb
        · exact hne (hcov.2.2 _ (by omega)).symm
        · exact not_covers_of_mem hfits hb (Or.inr ⟨d.1, by omega, by omega, Ne.symm hne⟩) hcov

/-! ### Insertion -/

/-- The search for a target to be added ends at a longer node, which is hung under the target on
the side of its bit `bits + 1` and not of its bit `bits`. -/
def wrongSide (sur : Surroundings) (tgt : Target) : BitTree CidrNode → Bool
  | .nil => false
  | .node a l r =>
    let dbit := (diffKeys sur.beyond tgt.ip tgt.bits a.ip a.bits).1
    if dbit = tgt.bits then
      decide (tgt.bits ≠ a.bits) &&
        (ipBit sur.beyond a.ip (tgt.bits + 1) != ipBit sur.beyond a.ip tgt.bits)
    else if dbit = a.bits then
      if ipBit sur.beyond tgt.ip dbit then wrongSide sur tgt r else wrongSide sur tgt l
    else false

/-- What a search with `create` leaves behind. -/
inductive Inserted (N : ℕ) (tgt : Target) (root : BitTree CidrNode) (f : Found) : Prop
  | exists (result : f.result = .exists) (root_eq : f.root = root)
      (has : Has root (tgt.ip.masked tgt.bits) tgt.bits)
  | nomemory (result : f.result = .nomemory) (root_eq : f.root = root)
  | success (result : f.result = .success) (inv : Inv N f.root)
      (has : ∀ ip bits, Has f.root ip bits ↔
        Has root ip bits ∨ ip = tgt.ip.masked tgt.bits ∧ bits = tgt.bits)

theorem newNode_shape {ip : Key} {bits : ℕ} {f : Flags} (h : bits ≤ N) : (newNode ip bits f).Shape N := by
  refine ⟨h, ?_⟩
  simp only [newNode]
  rw [masked_eq_iff]
  exact agree_masked ip bits

theorem Inserted.of_subtree {cur new : BitTree CidrNode} {path : List (Frame CidrNode)} {f : Found}
    (hhangs : Hangs CidrNode.bits nodeKey tgt.ip.toBits path n)
    (hshape : ∀ a ∈ (plug path cur).labels, a.Shape N) (hflags : FlagsOk (plug path cur))
    (hres : f.result = .success) (hroot : f.root = plug (markPath ipFlags path) new)
    (hfits : Fits CidrNode.bits nodeKey tgt.ip.toBits n new) (hnew : ∀ a ∈ new.labels, a.Shape N)
    (hok : FlagsOk new) (hip : (treeFlags new).ip = true)
    (hhas : ∀ ip bits, Has new ip bits ↔ Has cur ip bits ∨ ip = tgt.ip.masked tgt.bits ∧ bits = tgt.bits) :
    Inserted N tgt (plug path cur) f := by
  refine .success hres ⟨fun c => ?_, ?_, ?_⟩ fun ip bits => ?_
  · rw [hroot]
    exact ((hangs_markPath hhangs).fits_plug hfits).congr (fun i hi => absurd hi (by omega))
  · rw [hroot]
    exact shape_markPath hshape hnew
  · rw [hroot]
    exact hflags.mark hok hip
  · rw [hroot, has_plug, has_plug, pathHas_markPath, hhas]
    constructor
    · rintro ((h | h) | h)
      · exact .inl (.inl h)
      · exact .inr h
      · exact .inl (.inr h)
    · rintro ((h | h) | h)
      · exact .inl (.inl h)
      · exact .inr h
      · exact .inl (.inr h)

theorem has_leaf {ip : Key} {bits : ℕ} {ip' : Key} {bits' : ℕ} :
    Has (.node ((newNode ip bits .none).mark ipFlags) .nil .nil) ip' bits' ↔ ip' = ip.masked bits ∧ bits' = bits := by
  rw [has_node]
  simp only [has_nil, or_false]
  constructor
  · rintro ⟨rfl, rfl, -⟩
    exact ⟨rfl, rfl⟩
  · rintro ⟨rfl, rfl⟩
    exact ⟨rfl, rfl, rfl⟩

theorem Fits.ofKey {c d : Bits} {m n : ℕ}
    (h : Fits CidrNode.bits nodeKey c n (.node a l r)) (hm : m ≤ a.bits) (hd : Agree m d a.ip.toBits) :
    Fits CidrNode.bits nodeKey d m (.node a l r) := by
  refine ⟨hm, a.ip.toBits, hd, ?_, h.children rfl (Agree.refl _ _)⟩
  intro _ hk
  cases hk
  exact Agree.refl _ _

theorem fits_parent {b : CidrNode} {c : Bits} (hn : n ≤ b.bits)
    (hlt : b.bits < a.bits) (hb : Agree b.bits b.ip.toBits c) (hagree : Agree b.bits c a.ip.toBits)
    (h : Fits CidrNode.bits nodeKey c n (.node a l r)) :
    Fits CidrNode.bits nodeKey c n (join b (a.ip.toBits b.bits) (.node a l r) .nil) := by
  refine Fits.congr (c := a.ip.toBits) (Fits.join hn ?_ rfl ?_ trivial) (hagree.symm.mono hn)
  · intro _ hk
    cases hk
    exact hb.trans hagree
  · exact Fits.ofKey h hlt (Agree.refl _ _)

theorem fits_fork {b leaf : CidrNode} {c : Bits} (hn : n ≤ b.bits)
    (hlt : b.bits < a.bits) (hleaf : b.bits < leaf.bits) (hb : Agree b.bits b.ip.toBits c)
    (hkey : Agree leaf.bits leaf.ip.toBits c) (hagree : Agree b.bits c a.ip.toBits)
    (hne : c b.bits ≠ a.ip.toBits b.bits) (h : Fits CidrNode.bits nodeKey c n (.node a l r)) :
    Fits CidrNode.bits nodeKey c n (join b (c b.bits) (.node leaf .nil .nil) (.node a l r)) := by
  refine Fits.join hn ?_ rfl (Fits.leaf hleaf ?_) ?_
  · intro _ hk
    cases hk
    exact hb
  · intro _ hk
    cases hk
    exact hkey
  · refine Fits.ofKey h hlt (Agree.succ (hagree.update _) ?_)
    rw [update_self]
    cases h1 : c b.bits <;> cases h2 : a.ip.toBits b.bits <;> simp_all

theorem searchFrom_insert (hty : tgt.type = .ip) (hcreate : tgt.create = true) (hN : N ≤ 128) (hbits : tgt.bits ≤ N) :
    ∀ (cur : BitTree CidrNode) (path : List (Frame CidrNode)) (findResult : Result)
      (found : Option Place) (reads : List ℕ) (n : ℕ), Hangs CidrNode.bits nodeKey tgt.ip.toBits path n → n ≤ tgt.bits →
      Fits CidrNode.bits nodeKey tgt.ip.toBits n cur → (∀ a ∈ (plug path cur).labels, a.Shape N) →
      FlagsOk (plug path cur) → wrongSide sur tgt cur = false →
      Inserted N tgt (plug path cur) (searchFrom sur tgt cur path findResult found reads) := by
  intro cur
  induction cur with
  | nil =>
    intro path findResult found reads n hhangs hn hfits hshape hflags _
    rw [searchFrom]
    simp only [hcreate, Target.flags_ip hty, Bool.not_true, Bool.false_eq_true, if_false]
    cases hmem : sur.mem1 with
    | false => exact .nomemory rfl rfl
    | true =>
      refine .of_subtree hhangs hshape hflags rfl rfl (Fits.leaf hn ?_) ?_ ⟨rfl, trivial, trivial⟩ rfl ?_
      · intro _ hk
        cases hk
        exact agree_masked _ _
      · intro a ha
        simp only [BitTree.mem_labels_node, BitTree.labels_nil, not_mem_nil, or_false] at ha
        rw [ha]
        exact newNode_shape (f := .none) hbits
      · intro ip bits
        rw [has_leaf]
        simp
  | node a l r ihl ihr =>
    intro path findResult found reads n hhangs hn hfits hshape hflags hside
    have hna := hfits.1
    have haShape : a.Shape N := hshape a (mem_plug.2 (Or.inl (by simp)))
    have ha128 : a.bits ≤ 128 := haShape.1.trans hN
    have hcur : FlagsOk (.node a l r) := hflags.of_plug
    obtain ⟨hd1, hd2, hagree, hdiff, -⟩ := diffKeys_spec sur.beyond tgt.ip a.ip (hbits.trans hN) ha128
    rw [wrongSide] at hside
    rw [searchFrom]
    simp only [hcreate, Target.flags_ip hty, Target.dataFlag_ip hty, meets_dataFlag, Bool.not_true,
      Bool.and_false, Bool.false_eq_true, if_false, if_true]
    generalize hdef : (diffKeys sur.beyond tgt.ip tgt.bits a.ip a.bits) = d at *
    split
    next hdt =>
      split
      next hab =>
        -- the node is the target
        have hkey : a.ip = tgt.ip.masked tgt.bits := by
          rw [← haShape.2, ← hab, masked_eq_iff, ← hdt]
          exact hagree.symm
        split
        next hdata =>
          exact .exists rfl rfl (has_plug.2 (Or.inl (has_node.2 (Or.inl ⟨hkey, hab.symm, hdata⟩))))
        next hdata =>
          have hmark := mark_flags hcur
          refine .of_subtree hhangs hshape hflags rfl rfl hfits ?_ ?_ ?_ ?_
          · intro b hb
            rcases BitTree.mem_labels_node.1 hb with rfl | hb
            · exact haShape
            · exact hshape b (mem_plug.2 (Or.inl (BitTree.mem_labels_node.2 (Or.inr hb))))
          · exact ⟨by rw [hmark]; rfl, hcur.2⟩
          · rw [treeFlags, hmark]
          · intro ip bits
            rw [has_node, has_node, hmark]
            simp only [CidrNode.mark, hdata, Bool.false_eq_true, and_false, false_or, and_true]
            rw [hkey, ← hab]
            constructor
            · rintro (⟨rfl, rfl⟩ | h)
              · exact .inr ⟨rfl, rfl⟩
              · exact .inl h
            · rintro (h | ⟨rfl, rfl⟩)
              · exact .inr h
              · exact .inl ⟨rfl, rfl⟩
      next hab =>
        -- the target becomes the parent of the node
        have hlt : tgt.bits < a.bits := by omega
        rw [hdt] at hagree
        simp only [hdt, if_true, ne_eq, hab, not_false_eq_true, decide_true, Bool.true_and,
          bne_eq_false_iff_eq] at hside
        rw [hside, ipBit_eq _ _ (by omega)]
        cases hmem : sur.mem1 with
        | false => exact .nomemory rfl rfl
        | true =>
          have hflag : ((newNode tgt.ip tgt.bits a.flags).mark ipFlags).flags = ipFlags := by
            rw [newNode, hcur.1]
            simp [CidrNode.mark, Flags.union, Flags.without, Flags.data]
          refine .of_subtree hhangs hshape hflags rfl rfl ?_ ?_ ?_ ?_ ?_
          · exact fits_parent hn hlt (agree_masked _ _) hagree hfits
          · intro b hb
            rcases mem_join.1 hb with rfl | hb | hb
            · exact newNode_shape (f := a.flags) hbits
            · exact hshape b (mem_plug.2 (Or.inl hb))
            · cases hb
          · rw [flagsOk_join, hflag]
            exact ⟨rfl, hcur, trivial⟩
          · rw [treeFlags_join, hflag]
          · intro ip bits
            rw [has_join, hflag]
            simp only [has_nil, or_false, and_true]
            constructor
            · rintro (⟨rfl, rfl⟩ | h)
              · exact .inr ⟨rfl, rfl⟩
              · exact .inl h
            · rintro (h | ⟨rfl, rfl⟩)
              · exact .inr h
              · exact .inl ⟨rfl, rfl⟩
    next hdt =>
      split
      next hda =>
        -- go down on the target's side
        rw [hda] at hagree
        obtain ⟨hpush, hchild⟩ := hhangs.cons hfits rfl hagree.symm
        have hbit : ipBit sur.beyond tgt.ip d.1 = tgt.ip.toBits a.bits := by
          rw [ipBit_eq _ _ (by omega), hda]
        rw [if_neg hdt, if_pos hda, hbit] at hside
        rw [hbit]
        cases hx : tgt.ip.toBits a.bits with
        | false =>
          rw [hx] at hpush hchild hside
          exact ihl _ _ _ _ _ hpush (by omega) hchild hshape hflags hside
        | true =>
          rw [hx] at hpush hchild hside
          exact ihr _ _ _ _ _ hpush (by omega) hchild hshape hflags hside
      next hda =>
        -- a fork above the node
        have hne := hdiff (by omega) (by omega)
        have hnd : n ≤ d.1 := by
          by_contra hcon
          obtain ⟨-, k, hk, hcar, -⟩ := hfits
          apply hne
          rw [hk d.1 (by omega), hcar _ rfl d.1 (by omega)]
        rw [ipBit_eq _ _ (by omega)]
        cases hmem : (sur.mem1 && sur.mem2) with
        | false => exact .nomemory rfl rfl
        | true =>
          have hflag : ((newNode tgt.ip d.1 a.flags).mark (ipFlags.without .data)).flags =
              ⟨true, false, false, false, false⟩ := by
            rw [newNode, hcur.1]
            simp [CidrNode.mark, Flags.union, Flags.without, Flags.data]
          refine .of_subtree hhangs hshape hflags rfl rfl ?_ ?_ ?_ ?_ ?_
          · exact fits_fork hnd (show d.1 < a.bits by omega) (show d.1 < tgt.bits by omega)
              (agree_masked _ _) (agree_masked _ _) hagree hne hfits
          · intro b hb
            rcases mem_join.1 hb with rfl | hb | hb
            · exact newNode_shape (f := a.flags) (show d.1 ≤ N by omega)
            · simp only [BitTree.mem_labels_node, BitTree.labels_nil, not_mem_nil, or_false] at hb
              rw [hb]
              exact newNode_shape (f := .none) hbits
            · exact hshape b (mem_plug.2 (Or.inl hb))
          · rw [flagsOk_join, hflag]
            exact ⟨rfl, ⟨rfl, trivial, trivial⟩, hcur⟩
          · rw [treeFlags_join, hflag]
          · intro ip bits
            rw [has_join, hflag, has_leaf]
            simp only [Bool.false_eq_true, and_false, false_or]
            exact or_comm

end search

/-! ### Deletion -/

/-- The child of a useless node may take its place. -/
structure Replaces (t t' : BitTree CidrNode) : Prop where
  fits : ∀ c n, Fits CidrNode.bits nodeKey c n t → Fits CidrNode.bits nodeKey c n t'
  mem : ∀ a ∈ t'.labels, a ∈ t.labels
  flags : FlagsOk t → FlagsOk t' ∧ (treeFlags t').ip = (treeFlags t).ip
  has : FlagsOk t → ∀ ip bits, Has t' ip bits ↔ Has t ip bits

theorem useless_replaces (h : useless a l r = true) : Replaces (.node a l r) (onlyChild l r) := by
  have hchild : ∀ c n, Fits CidrNode.bits nodeKey c n (.node a l r) →
      Fits CidrNode.bits nodeKey c n l ∧ Fits CidrNode.bits nodeKey c n r := by
    rintro c n ⟨hn, k, hk, -, hl, hr⟩
    have hup : ∀ v, Agree n (update k a.bits v) c := fun v =>
      (((Agree.refl _ k).update v).mono hn).trans hk.symm
    exact ⟨(hl.mono (by omega)).congr (hup false), (hr.mono (by omega)).congr (hup true)⟩
  have hdata : FlagsOk (.node a l r) → a.flags.ipData = false := by
    intro hok
    unfold useless at h
    rw [hok.1, Bool.and_eq_true] at h
    simpa [Flags.meets, Flags.data] using h.2
  have hnil : l = .nil ∨ r = .nil := by
    unfold useless at h
    simp only [Bool.and_eq_true, Bool.or_eq_true, beq_iff_eq] at h
    exact h.1
  have hone : onlyChild l r = r ∧ l = .nil ∨ onlyChild l r = l ∧ r = .nil := by
    unfold onlyChild
    rcases hnil with rfl | rfl
    · exact .inl ⟨rfl, rfl⟩
    cases l with
    | nil => exact .inl ⟨rfl, rfl⟩
    | node b l' r' => exact .inr ⟨rfl, rfl⟩
  rcases hone with ⟨he, rfl⟩ | ⟨he, rfl⟩
  · rw [he]
    refine ⟨fun c n hf => (hchild c n hf).2, fun b hb => by simp [hb], fun hok => ⟨hok.2.2, ?_⟩, ?_⟩
    · rw [show treeFlags (.node a .nil r) = a.flags from rfl, hok.1, hdata hok]
      simp [treeFlags, Flags.none]
    · intro hok ip bits
      rw [has_node]
      simp [hdata hok]
  rw [he]
  refine ⟨fun c n hf => (hchild c n hf).1, fun b hb => by simp [hb], fun hok => ⟨hok.2.1, ?_⟩, ?_⟩
  · rw [show treeFlags (.node a l .nil) = a.flags from rfl, hok.1, hdata hok]
    simp [treeFlags, Flags.none]
  · intro hok ip bits
    rw [has_node]
    simp [hdata hok]

theorem Replaces.plug {t' : BitTree CidrNode} (h : Replaces t t') (hinv : Inv N (plug p t)) :
    Inv N (Patricia.plug p t') ∧ ∀ ip bits, Has (Patricia.plug p t') ip bits ↔ Has (Patricia.plug p t) ip bits := by
  have hok : FlagsOk t := hinv.flags.of_plug
  refine ⟨⟨fun c => ?_, fun a ha => hinv.shape a ?_, ?_⟩, fun ip bits => ?_⟩
  · obtain ⟨d, n, hp, ht⟩ := (hinv.fits c).unplug
    exact (hp.fits_plug (h.fits d n ht)).congr (fun i hi => absurd hi (by omega))
  · rcases mem_plug.1 ha with ha | ha
    · exact mem_plug.2 (Or.inl (h.mem a ha))
    · exact mem_plug.2 (Or.inr ha)
  · exact hinv.flags.replace (h.flags hok).1 (h.flags hok).2
  · rw [has_plug, has_plug, h.has hok]

/-- Removing useless nodes upwards keeps the invariant and the prefixes. -/
theorem collapse_spec : ∀ (p : List (Frame CidrNode)) (a : CidrNode) (l r : BitTree CidrNode),
    Inv N (plug p (.node a l r)) →
      Inv N (collapse p a l r) ∧ ∀ ip bits, Has (collapse p a l r) ip bits ↔ Has (plug p (.node a l r)) ip bits
  | [], a, l, r, h => by
    rw [collapse]
    split
    · next hu => exact (useless_replaces hu).plug (p := []) h
    · exact ⟨h, fun _ _ => Iff.rfl⟩
  | f :: p, a, l, r, h => by
    rw [collapse]
    split
    · next hu =>
        obtain ⟨hinv, hhas⟩ := (useless_replaces hu).plug (p := f :: p) h
        have hplug : plug (f :: p) (onlyChild l r) = plug p (join f.label f.right (onlyChild l r) f.other) := rfl
        split
        · next hright =>
            rw [hplug, hright, join, if_pos rfl] at hinv hhas
            obtain ⟨hinv', hhas'⟩ := collapse_spec p _ _ _ hinv
            exact ⟨hinv', fun ip bits => (hhas' ip bits).trans (hhas ip bits)⟩
        next hright =>
          rw [hplug, join, if_neg hright] at hinv hhas
          obtain ⟨hinv', hhas'⟩ := collapse_spec p _ _ _ hinv
          exact ⟨hinv', fun ip bits => (hhas' ip bits).trans (hhas ip bits)⟩
    · exact ⟨h, fun _ _ => Iff.rfl⟩

/-- The two paths differ in summary flags only. -/
def SameSteps (p p' : List (Frame CidrNode)) : Prop :=
  Forall₂ (fun f f' => f'.label.ip = f.label.ip ∧ f'.label.bits = f.label.bits ∧
    f'.label.flags.ipData = f.label.flags.ipData ∧ f'.right = f.right ∧ f'.other = f.other) p p'

theorem clearPath_same (h : FlagsOk (plug p t)) : ∀ childFlags, SameSteps p (clearPath ipFlags childFlags p) := by
  induction p generalizing t with
  | nil => intro _; exact .nil
  | cons f p ih =>
    intro childFlags
    rw [clearPath]
    split
    · exact .cons ⟨rfl, rfl, rfl, rfl, rfl⟩ (forall₂_same.2 fun _ _ => ⟨rfl, rfl, rfl, rfl, rfl⟩)
    next hbreak =>
      refine .cons ⟨rfl, rfl, ?_, rfl, rfl⟩ (ih (t := join f.label f.right t f.other) h _)
      simp only [Bool.or_eq_true, not_or, Bool.not_eq_true] at hbreak
      have hdata : f.label.flags.ipData = false := by
        simpa [Flags.dataOf, Flags.meets] using hbreak.1.1
      simp [Flags.without, hdata]

theorem SameSteps.hangs {c : Bits} : ∀ {p p' : List (Frame CidrNode)} {n : ℕ}, SameSteps p p' →
    Hangs CidrNode.bits nodeKey c p n → Hangs CidrNode.bits nodeKey c p' n
  | [], _, _, .nil, _ => trivial
  | f :: _, f' :: _, _, .cons ⟨hip, hb, _, hr, ho⟩ hs, ⟨hn, hcar, hside, hother, hp⟩ => by
    refine ⟨by rw [hb]; exact hn, ?_, by rw [hb, hr]; exact hside, by rw [hb, hr, ho]; exact hother, ?_⟩
    · intro k hk
      cases hk
      rw [hb, hip]
      exact hcar _ rfl
    · rw [hb]
      exact SameSteps.hangs hs hp
theorem SameSteps.pathHas (h : SameSteps p p') : PathHas p' ip bits ↔ PathHas p ip bits := by
  induction h with
  | nil => exact Iff.rfl
  | cons hf _ ih =>
    obtain ⟨hip, hb, hd, -, ho⟩ := hf
    unfold PathHas at ih ⊢
    simp only [mem_cons, exists_eq_or_imp, hip, hb, hd, ho, ih]

theorem SameSteps.shape (h : SameSteps p p') : (∀ f ∈ p, f.label.Shape N ∧ ∀ a ∈ f.other.labels, a.Shape N) →
      ∀ f ∈ p', f.label.Shape N ∧ ∀ a ∈ f.other.labels, a.Shape N := by
  induction h with
  | nil => exact id
  | @cons f f' p p' hf _ ih =>
    intro hall g hg
    obtain ⟨hip, hb, -, -, ho⟩ := hf
    rcases mem_cons.1 hg with rfl | hg
    · unfold CidrNode.Shape
      rw [hip, hb, ho]
      exact hall f (by simp)
    · exact ih (fun f' hf' => hall f' (by simp [hf'])) g hg

theorem FlagsOk.clear : ∀ {p : List (Frame CidrNode)} {t t' : BitTree CidrNode}, FlagsOk (plug p t) →
    FlagsOk t' → (treeFlags t').ip = false → FlagsOk (plug (clearPath ipFlags (treeFlags t') p) t')
  | [], _, _, _, h', _ => h'
  | f :: p, t, t', h, h', hip => by
    obtain ⟨hf, -, hother⟩ := flagsOk_join.1 (FlagsOk.of_plug (p := p) h)
    have hmeet : (treeFlags t').meets ipFlags = false := by rw [h'.meets_iff, hip]
    rw [clearPath, hmeet, hother.meets_iff]
    have hd : f.label.flags.meets ipFlags.dataOf = f.label.flags.ipData := by
      simp [Flags.meets, Flags.dataOf]
    rw [hd]
    split
    · next hbreak =>
        -- the flag stays for the sake of the node itself or of its other child
        refine FlagsOk.replace (p := p) h ?_ ?_
        · rw [flagsOk_join, hip]
          refine ⟨?_, h', hother⟩
          have hbreak' : f.label.flags.ipData = true ∨ (treeFlags f.other).ip = true := by
            simpa using hbreak
          rw [hf]
          rcases hbreak' with hb | hb <;> simp [hb]
        · rw [treeFlags_join, treeFlags_join]
    next hbreak =>
      have hno : f.label.flags.ipData = false ∧ (treeFlags f.other).ip = false := by
        simpa using hbreak
      have hcl : f.label.flags.without ipFlags = ⟨false, false, false, false, false⟩ := by
        rw [hf]
        simp [Flags.without]
      rw [hcl]
      have hu : FlagsOk (join { f.label with flags := ⟨false, false, false, false, false⟩ } f.right t'
          f.other) := by
        rw [flagsOk_join, hip, hno.2]
        exact ⟨rfl, h', hother⟩
      have hnext := FlagsOk.clear (p := p) h hu (by rw [treeFlags_join])
      rw [treeFlags_join] at hnext
      exact hnext

theorem flagsOk_of_node (h : FlagsOk (.node a l r)) :
    a.flags.ip = (a.flags.ipData || (treeFlags l).ip || (treeFlags r).ip) := by
  conv_lhs => rw [h.1]

variable {place : Place}

/-- Only the found node stands for its prefix. -/
theorem unique_at {tgt : Target} (h : PlaceOf tgt root place)
    (hkey : Agree place.node.bits place.node.ip.toBits tgt.ip.toBits) : (¬ PathHas place.path place.node.ip place.node.bits) ∧
      ¬ Has place.left place.node.ip place.node.bits ∧ ¬ Has place.right place.node.ip place.node.bits := by
  refine ⟨?_, ?_, ?_⟩
  · rintro ⟨f, hf, ⟨-, hb, -⟩ | ⟨a, ha, hip, hb, -⟩⟩
    · have := (h.hangs.of_mem f hf).1
      omega
    · refine (h.hangs.of_mem f hf).2 a ha ⟨_, rfl, ?_⟩
      rw [hb, hip]
      exact hkey
  · rintro ⟨a, ha, -, hb, -⟩
    obtain ⟨-, k, -, -, hl, -⟩ := h.fits
    have := (hl.of_mem ha).1
    omega
  · rintro ⟨a, ha, -, hb, -⟩
    obtain ⟨-, k, -, -, -, hr⟩ := h.fits
    have := (hr.of_mem ha).1
    omega

/-- The tree with the data of the found node taken away, before useless nodes are removed. -/
theorem cleared_spec {tgt : Target} (hinv : Inv N root)
    (h : PlaceOf tgt root place) (hcov : Covers tgt place.node) {flags : Flags}
    (hsame : SameSteps place.path p') (hdata : flags.ipData = false)
    (hok : FlagsOk (plug p' (.node { place.node with flags := flags } place.left place.right))) :
    Inv N (plug p' (.node { place.node with flags := flags } place.left place.right)) ∧
      ∀ ip bits, Has (plug p' (.node { place.node with flags := flags } place.left place.right)) ip bits ↔
        Has root ip bits ∧ ¬ (ip = place.node.ip ∧ bits = place.node.bits) := by
  have hroot := h.root_eq
  have hshape : ∀ f ∈ place.path, f.label.Shape N ∧ ∀ a ∈ f.other.labels, a.Shape N := by
    intro f hf
    refine ⟨hinv.shape _ ?_, fun a ha => hinv.shape a ?_⟩
    · rw [← hroot]
      exact mem_plug.2 (Or.inr ⟨f, hf, Or.inl rfl⟩)
    · rw [← hroot]
      exact mem_plug.2 (Or.inr ⟨f, hf, Or.inr ha⟩)
  have hnode : ∀ a ∈ (BitTree.node place.node place.left place.right).labels, a.Shape N := by
    intro a ha
    apply hinv.shape
    rw [← hroot]
    exact mem_plug.2 (Or.inl ha)
  refine ⟨⟨fun c => ?_, fun a ha => ?_, hok⟩, fun ip bits => ?_⟩
  · have hfits : Fits CidrNode.bits nodeKey tgt.ip.toBits place.node.bits
        (.node { place.node with flags := flags } place.left place.right) := h.fits
    exact ((hsame.hangs h.hangs).fits_plug hfits).congr (fun i hi => absurd hi (by omega))
  · rcases mem_plug.1 ha with ha | ⟨f, hf, hfa⟩
    · rcases BitTree.mem_labels_node.1 ha with rfl | ha
      · exact hnode place.node (by simp)
      · exact hnode a (BitTree.mem_labels_node.2 (Or.inr ha))
    · obtain ⟨hl, ho⟩ := hsame.shape hshape f hf
      rcases hfa with rfl | hfa
      · exact hl
      · exact ho a hfa
  · rw [← hroot, has_plug, has_plug, hsame.pathHas, has_node, has_node]
    obtain ⟨hpath, hleft, hright⟩ := unique_at h hcov.2.2
    simp only [hdata, Bool.false_eq_true, and_false, false_or]
    constructor
    · intro hhas
      refine ⟨?_, ?_⟩
      · rcases hhas with hh | hh
        · exact .inl (.inr hh)
        · exact .inr hh
      · rintro ⟨rfl, rfl⟩
        rcases hhas with (hh | hh) | hh
        · exact hleft hh
        · exact hright hh
        · exact hpath hh
    · rintro ⟨(⟨rfl, rfl, -⟩ | hh) | hh, hne⟩
      · exact absurd ⟨rfl, rfl⟩ hne
      · exact .inl hh
      · exact .inr hh

theorem deleteAt_spec {tgt : Target} (hinv : Inv N root) (h : PlaceOf tgt root place) (hcov : Covers tgt place.node) :
    Inv N (deleteAt ipFlags place) ∧ ∀ ip bits, Has (deleteAt ipFlags place) ip bits ↔
      Has root ip bits ∧ ¬ (ip = place.node.ip ∧ bits = place.node.bits) := by
  have hflags : FlagsOk (plug place.path (.node place.node place.left place.right)) := h.root_eq ▸ hinv.flags
  have hnode := hflags.of_plug
  have hip : place.node.flags.ip = true := by
    rw [flagsOk_of_node hnode, hcov.1]
    rfl
  have hown : place.node.flags.without ipFlags.dataOf = ⟨true, false, false, false, false⟩ := by
    rw [hnode.1]
    have := flagsOk_of_node hnode
    rw [hip] at this
    simp [Flags.without, Flags.dataOf, ← this]
  have hmeets : (⟨true, false, false, false, false⟩ : Flags).meets ipFlags.dataOf = false := rfl
  unfold deleteAt
  simp only [hown, hmeets, Bool.false_or, hnode.2.1.meets_iff, hnode.2.2.meets_iff]
  split
  · next hbelow =>
      have hok : FlagsOk (plug place.path (.node { place.node with flags := ⟨true, false, false, false, false⟩ }
          place.left place.right)) := by
        refine hflags.replace ⟨?_, hnode.2⟩ ?_
        · simp [hbelow]
        · exact hip.symm
      obtain ⟨h1, h2⟩ := cleared_spec hinv h hcov
        (forall₂_same.2 fun _ _ => ⟨rfl, rfl, rfl, rfl, rfl⟩) rfl hok
      obtain ⟨h3, h4⟩ := collapse_spec _ _ _ _ h1
      exact ⟨h3, fun ip bits => (h4 ip bits).trans (h2 ip bits)⟩
  next hbelow =>
    have hno : (treeFlags place.left).ip = false ∧ (treeFlags place.right).ip = false := by
      simpa using hbelow
    have hcl : (⟨true, false, false, false, false⟩ : Flags).without ipFlags = .none := rfl
    rw [hcl]
    have hu : FlagsOk (.node { place.node with flags := .none } place.left place.right) :=
      ⟨by simp [hno, Flags.none], hnode.2⟩
    have hok := hflags.clear hu rfl
    obtain ⟨h1, h2⟩ := cleared_spec hinv h hcov (clearPath_same hflags _) rfl hok
    obtain ⟨h3, h4⟩ := collapse_spec _ _ _ _ h1
    exact ⟨h3, fun ip bits => (h4 ip bits).trans (h2 ip bits)⟩

end Bind9.Rpz
