import Bind9.SlabMerge

/-! # The slab of a merge

What `dns_rdataslab_merge` writes: the union of the records of two slabs, the old ones first in load order. -/

namespace Bind9.RawSlab

open List

/-! ### The union -/

section Union

variable {l : Layout} {reservelen : ℕ} {oslab nslab slab : Bytes} {os ns rs : List Stored}

/-- The records of the merged slab, by their keys. -/
def unionOf (l : Layout) (os ns : List Stored) : List Stored := union l os (shifted os.length (without l os ns))

/-- The records of the merged slab. -/
def merged (l : Layout) (os ns : List Stored) : List Stored := ranked ((unionOf l os ns).map Stored.draft)

theorem unionOf_perm (os ns : List Stored) : (unionOf l os ns).Perm (os ++ shifted os.length (without l os ns)) :=
  merge_perm_append _

theorem map_rr_shifted (n : ℕ) (ns : List Stored) : (shifted n ns).map Stored.rr = ns.map Stored.rr := by
  unfold shifted
  rw [map_map]
  rfl

theorem map_rr_unionOf (os ns : List Stored) :
    ((unionOf l os ns).map Stored.rr).Perm (os.map Stored.rr ++ (without l os ns).map Stored.rr) := by
  have hperm := (unionOf_perm (l := l) os ns).map Stored.rr
  rw [map_append, map_rr_shifted] at hperm
  exact hperm

theorem length_unionOf (os ns : List Stored) : (unionOf l os ns).length = os.length + (without l os ns).length := by
  rw [(unionOf_perm os ns).length_eq, length_append]
  unfold shifted
  rw [length_map]

theorem storageSize_perm {a b : List Record} (h : a.Perm b) : storageSize l a = storageSize l b := (h.map _).sum_eq

theorem storageSize_append (a b : List Record) : storageSize l (a ++ b) = storageSize l a + storageSize l b := by
  unfold storageSize
  rw [map_append, sum_append]

theorem storageSize_unionOf (os ns : List Stored) : storageSize l ((unionOf l os ns).map Stored.rr) =
    storageSize l (os.map Stored.rr) + storageSize l ((without l os ns).map Stored.rr) := by
  rw [storageSize_perm (map_rr_unionOf os ns), storageSize_append]

theorem sizes_unionOf : storageSize l (os.map Stored.rr) + storageSize l ((without l os ns).map Stored.rr) =
    tableSize l (os.length + (without l os ns).length) + recordsSize l ((unionOf l os ns).map Stored.rr) := by
  rw [← storageSize_unionOf, storageSize_eq, length_map, length_unionOf]

theorem map_rr_merged (os ns : List Stored) : (merged l os ns).map Stored.rr = (unionOf l os ns).map Stored.rr := by
  unfold merged
  rw [map_rr_ranked, map_rr_draft]

theorem unionOf_keys (hold : WellFormed l reservelen oslab os) (hnew : WellFormed l reservelen nslab ns) (hfixed : l.fixed = true) :
    (∀ e ∈ unionOf l os ns, e.order < os.length + ns.length) ∧ ((unionOf l os ns).map Stored.order).Nodup := by
  have hperm := unionOf_perm (l := l) os ns
  have hshifted : ∀ e ∈ shifted os.length (without l os ns), os.length ≤ e.order ∧ e.order < os.length + ns.length := by
    intro e he
    obtain ⟨s, hs, rfl⟩ := mem_map.1 he
    have hlt := hnew.order_lt hfixed s ((without_sublist os ns).subset hs)
    exact ⟨Nat.le_add_right _ _, Nat.add_lt_add_left hlt _⟩
  refine ⟨fun e he => ?_, ?_⟩
  · obtain he | he := mem_append.1 (hperm.mem_iff.1 he)
    · have hlt := hold.order_lt hfixed e he
      omega
    · exact (hshifted e he).2
  · rw [(hperm.map Stored.order).nodup_iff, map_append]
    refine nodup_append.2 ⟨(hold.orders hfixed).nodup_iff.2 nodup_range, ?_, fun a ha b hb => ?_⟩
    · have hnodup : (ns.map Stored.order).Nodup := (hnew.orders hfixed).nodup_iff.2 nodup_range
      have hsame : (shifted os.length (without l os ns)).map Stored.order = ((without l os ns).map Stored.order).map (os.length + ·) := by
        unfold shifted
        rw [map_map, map_map]
        rfl
      rw [hsame]
      exact (hnodup.sublist ((without_sublist os ns).map _)).map (fun x y hxy => Nat.add_left_cancel hxy)
    · obtain ⟨s, hs, rfl⟩ := mem_map.1 ha
      obtain ⟨e, he, rfl⟩ := mem_map.1 hb
      have h1 := hold.order_lt hfixed s hs
      have h2 := (hshifted e he).1
      omega

theorem without_sorted (hnew : WellFormed l reservelen nslab ns) (os : List Stored) (n : ℕ) :
    (shifted n (without l os ns)).Pairwise (fun a b => compareStored l a b = .lt) :=
  pairwise_map.2 (hnew.sorted.sublist (without_sublist os ns))

variable [Std.TransCmp (l.ops.compare l.type)] (heap : Heap) (hold : WellFormed l reservelen oslab os) (hnew : WellFormed l reservelen nslab ns)

include hold hnew

theorem unionOf_sorted : (unionOf l os ns).Pairwise (fun a b => compareStored l a b = .lt) := by
  apply @MergeJoin.pairwise_merge Stored (compareStored l) _ os (shifted os.length (without l os ns)) hold.sorted
    (without_sorted hnew os os.length)
  intro s hs e he heq
  obtain ⟨x, hx, rfl⟩ := mem_map.1 he
  have hlacks : Has l os x.rr.data = false := by simpa using (mem_filter.1 hx).2
  have heq' : compareStored l x s = .eq := Std.OrientedCmp.eq_comm.1 heq
  rw [has_eq_any, any_eq_false] at hlacks
  exact hlacks s hs (beq_iff_eq.2 heq')

theorem wellFormed_merged (hcount : os.length + (without l os ns).length ≤ 0xffff)
    (hlt : reservelen + 2 + (storageSize l (os.map Stored.rr) + storageSize l ((without l os ns).map Stored.rr)) < 2 ^ 32) :
    WellFormed l reservelen (image l (nslab.take reservelen) (table l (merged l os ns)).flatten ((merged l os ns).map Stored.draft))
      (merged l os ns) := by
  have hreserve := hnew.reserve.2
  have hwell := @wellFormed_ranked l (nslab.take reservelen) ((unionOf l os ns).map Stored.draft) ?_ ?_ ?_ ?_ ?_ ?_
  · rw [hreserve] at hwell
    exact hwell
  · intro hnil
    have hlen := length_unionOf (l := l) os ns
    rw [map_eq_nil_iff.1 hnil] at hlen
    have hpos := length_pos_of_ne_nil hold.ne
    rw [length_nil] at hlen
    omega
  · rw [length_map, length_unionOf]
    exact hcount
  · intro g hg
    obtain ⟨e, he, rfl⟩ := mem_map.1 hg
    obtain he | he := mem_append.1 ((unionOf_perm os ns).mem_iff.1 he)
    · exact hold.body_le e he
    · obtain ⟨x, hx, rfl⟩ := mem_map.1 he
      exact hnew.body_le x ((without_sublist os ns).subset hx)
  · exact pairwise_map.2 (unionOf_sorted hold hnew)
  · intro hfixed
    rw [map_map]
    exact (unionOf_keys hold hnew hfixed).2
  · rw [hreserve, map_rr_draft, storageSize_unionOf]
    exact hlt

theorem writeMerged_ok {tlength : ℕ}
    (htlength : tlength = reservelen + 2 + (storageSize l (os.map Stored.rr) + storageSize l ((without l os ns).map Stored.rr)))
    (hlt : tlength < 2 ^ 32) :
    writeMerged l heap oslab nslab reservelen os.length ns.length (without l os ns).length (os.length + (without l os ns).length) tlength =
      .ok (image l (nslab.take reservelen) (table l (merged l os ns)).flatten ((merged l os ns).map Stored.draft)) := by
  obtain ⟨cs, hcs, hwrite⟩ := writeMerged_eq heap hold hnew (os.length + (without l os ns).length) tlength
  have hreserve := hnew.reserve.2
  have hsize := @sizes_unionOf l os ns
  obtain ⟨mem₁, mem₂, back, h1, h2, hback, hw⟩ := @writing_reserve l (nslab.take reservelen) (os.length + ns.length)
    (heap.get (tlength % 2 ^ 32)) (os.length + (without l os ns).length) (recordsSize l ((unionOf l os ns).map Stored.rr))
    (by rw [heap.length_get, Nat.mod_eq_of_lt hlt, hreserve]; omega)
  obtain ⟨w, gs, hall, hw', hgs⟩ := copyAll_ok hcs hw
    (fun hfixed => unionOf_keys hold hnew hfixed) hback.ge
  rw [map_nil, nil_append] at hgs
  rw [hreserve] at h2 hall
  have hnil : back.drop (recordsSize l ((unionOf l os ns).map Stored.rr)) = [] := drop_of_length_le hback.le
  have hlen : gs.length = os.length + (without l os ns).length := by
    have hcongr := congrArg List.length hgs
    rw [length_map] at hcongr
    rw [hcongr]
    exact length_unionOf os ns
  have hkeys : gs.map Draft.key = (unionOf l os ns).map Stored.order := by
    have hcongr := congrArg (List.map Stored.order) hgs
    rw [map_map] at hcongr
    exact hcongr
  have hranked : ranked gs = merged l os ns := by
    apply ranked_congr
    rw [hgs, stored_draft]
    rfl
  have hcur : w.cur = tlength := by
    have hrr : gs.map Draft.rr = (unionOf l os ns).map Stored.rr := by
      have hcongr := congrArg (List.map Stored.rr) hgs
      rw [map_map] at hcongr
      exact hcongr
    rw [hw'.cur, hreserve, hrr]
    omega
  rw [show union l os (shifted os.length (without l os ns)) = unionOf l os ns from rfl, hnil, ← hlen] at hw'
  have hfill := hw'.fillIn (fun hfixed => by
    obtain ⟨hbelow, hnodup⟩ := unionOf_keys hold hnew hfixed
    refine ⟨hkeys ▸ hnodup, fun g hg => ?_⟩
    have hmem : g.key ∈ (unionOf l os ns).map Stored.order := hkeys ▸ mem_map_of_mem hg
    obtain ⟨e, he, heq⟩ := mem_map.1 hmem
    exact heq ▸ hbelow e he)
  rw [hreserve, hranked] at hfill
  rw [hwrite, h1, ok_then, h2, ok_then, hall, ok_then, hfill, ok_then, hcur, Nat.mod_eq_of_lt hlt, require_true (decide_eq_true rfl)]
  rfl

theorem writeMerged_overrun {tlength : ℕ}
    (htlength : tlength = reservelen + 2 + (storageSize l (os.map Stored.rr) + storageSize l ((without l os ns).map Stored.rr)))
    (hge : 2 ^ 32 ≤ tlength) {t : Bytes}
    (h : writeMerged l heap oslab nslab reservelen os.length ns.length (without l os ns).length (os.length + (without l os ns).length)
      tlength = .ok t) : False := by
  obtain ⟨cs, hcs, hwrite⟩ := writeMerged_eq heap hold hnew (os.length + (without l os ns).length) tlength
  have hsize := @sizes_unionOf l os ns
  rw [hwrite] at h
  obtain ⟨mem₁, h1, h⟩ := bind_eq_ok h
  obtain ⟨mem₂, h2, h⟩ := bind_eq_ok h
  obtain ⟨w, hall, -⟩ := bind_eq_ok h
  obtain ⟨hmem, hcur, hle⟩ := copyAll_bounds hcs hall
  have hne : union l os (shifted os.length (without l os ns)) ≠ [] := by
    intro hnil
    have hlen := length_unionOf (l := l) os ns
    unfold unionOf at hlen
    rw [hnil] at hlen
    have hpos := length_pos_of_ne_nil hold.ne
    rw [length_nil] at hlen
    omega
  have hbound := hle hne
  have hlen1 := (poke_bounds h1).1
  have hlen2 := (poke_bounds h2).1
  have hmod : tlength % 2 ^ 32 < 2 ^ 32 := Nat.mod_lt _ (by decide)
  rw [heap.length_get] at hlen1
  have hcur' : w.cur = reservelen + 2 + tableSize l (os.length + (without l os ns).length) +
      recordsSize l ((unionOf l os ns).map Stored.rr) := hcur
  have hmem' : w.mem.length = mem₂.length := hmem
  omega

omit hold hnew

end Union

/-! ### The load order -/

section LoadOrder

variable {l : Layout} {reservelen : ℕ} {oslab nslab slab : Bytes} {os ns rs : List Stored}

/-- The records in load order, with their places. -/
def inOrder (rs : List Stored) : List Stored := rs.mergeSort (fun a b => decide (a.order ≤ b.order))

theorem inOrder_perm (rs : List Stored) : (inOrder rs).Perm rs := mergeSort_perm _ _

theorem loadOrder_eq (rs : List Stored) : loadOrder rs = (inOrder rs).map Stored.rr := rfl

theorem WellFormed.inOrder_rising (h : WellFormed l reservelen slab rs) (hfixed : l.fixed = true) :
    (inOrder rs).Pairwise (fun a b => a.order < b.order) := by
  have hle : (inOrder rs).Pairwise (fun a b => a.order ≤ b.order) := by
    have hpair := @pairwise_mergeSort Stored (fun a b => decide (a.order ≤ b.order))
      (fun a b c hab hbc => decide_eq_true (le_trans (of_decide_eq_true hab) (of_decide_eq_true hbc)))
      (fun a b => by simpa using Nat.le_total a.order b.order) rs
    exact hpair.imp of_decide_eq_true
  have hnodup : ((inOrder rs).map Stored.order).Nodup :=
    (((inOrder_perm rs).map _).trans (h.orders hfixed)).nodup_iff.2 nodup_range
  exact (hle.and (pairwise_map.1 hnodup)).imp (fun hab => lt_of_le_of_ne hab.1 hab.2)

/-- A filter does not change the order. -/
theorem without_perm {ss a b : List Stored} (h : a.Perm b) : (without l ss a).Perm (without l ss b) := h.filter _

theorem map_rr_without (ss rs : List Stored) :
    (without l ss rs).map Stored.rr = (rs.map Stored.rr).filter (fun r => !Has l ss r.data) := by
  unfold without
  rw [filter_map]
  rfl

/-- The old records come first, then the new ones. -/
theorem loadOrder_merged (hold : WellFormed l reservelen oslab os) (hnew : WellFormed l reservelen nslab ns) (hfixed : l.fixed = true) :
    loadOrder (merged l os ns) = loadOrder os ++ (loadOrder ns).filter (fun r => !Has l os r.data) := by
  have hperm : ((inOrder os ++ shifted os.length (without l os (inOrder ns))).map Stored.draft).Perm ((unionOf l os ns).map Stored.draft) := by
    apply Perm.map
    refine Perm.trans ?_ (unionOf_perm os ns).symm
    exact (inOrder_perm os).append ((without_perm (inOrder_perm ns)).map _)
  have hrising : ((inOrder os ++ shifted os.length (without l os (inOrder ns))).map Stored.draft).Pairwise (fun a b => a.key < b.key) := by
    apply pairwise_map.2
    refine pairwise_append.2 ⟨hold.inOrder_rising hfixed, ?_, fun a ha b hb => ?_⟩
    · apply pairwise_map.2
      exact ((hnew.inOrder_rising hfixed).sublist (without_sublist os _)).imp (fun hab => Nat.add_lt_add_left hab _)
    · obtain ⟨s, hs, rfl⟩ := mem_map.1 hb
      have hlt := hold.order_lt hfixed a ((inOrder_perm os).mem_iff.1 ha)
      exact Nat.lt_of_lt_of_le hlt (Nat.le_add_right _ _)
  have hload := loadOrder_ranked hperm hrising
  rw [map_rr_draft, map_append, map_rr_shifted, map_rr_without] at hload
  exact hload

end LoadOrder

/-! ### `dns_rdataslab_merge` -/

section Merge

variable (l : Layout) (reservelen : ℕ) (nslab : Bytes) (os ns : List Stored)

/-- Some record of the new slab is in the old one. -/
def Duplicated : Prop := ∃ s ∈ ns, Has l os s.rr.data = true

def NothingNew : Prop := ∀ s ∈ ns, Has l os s.rr.data = true

instance : Decidable (NothingNew l os ns) := inferInstanceAs (Decidable (∀ s ∈ ns, Has l os s.rr.data = true))

/-- The number of the records of the union. -/
def unionCount : ℕ := os.length + (without l os ns).length

/-- `tlength`, without overflow. -/
def unionLength : ℕ := reservelen + 2 + (storageSize l (os.map Stored.rr) + storageSize l ((without l os ns).map Stored.rr))

/-- The merge stops at the check of singletons or of the number of records. -/
def Refused : Prop := (1 < unionCount l os ns ∧ l.ops.issingleton l.type = true) ∨ 0xffff < unionCount l os ns

/-- The slab `t` with the records `ts` is the union of the two slabs. -/
structure IsUnion (t : Bytes) (ts : List Stored) : Prop where
  wellFormed : WellFormed l reservelen t ts
  records : (ts.map Stored.rr).Perm (os.map Stored.rr ++ (without l os ns).map Stored.rr)
  reserve : t.take reservelen = nslab.take reservelen
  length : t.length = unionLength l reservelen os ns
  size : size l t reservelen = .ok (unionLength l reservelen os ns)
  loadOrder : l.fixed = true → loadOrder ts = loadOrder os ++ (loadOrder ns).filter (fun r => !Has l os r.data)

/-- What a merge is meant to return, in the order of its checks. -/
structure MergesExactly (exact force : Bool) (result : Exec Bytes) : Prop where
  notexact : result = stop .notexact ↔ exact = true ∧ Duplicated l os ns
  unchanged : ¬(exact = true ∧ Duplicated l os ns) → (result = stop .unchanged ↔ NothingNew l os ns ∧ force = false)
  singleton : ¬(exact = true ∧ Duplicated l os ns) → ¬(NothingNew l os ns ∧ force = false) →
    (result = stop .singleton ↔ 1 < unionCount l os ns ∧ l.ops.issingleton l.type = true)
  nospace : ¬(exact = true ∧ Duplicated l os ns) → ¬(NothingNew l os ns ∧ force = false) →
    ¬(1 < unionCount l os ns ∧ l.ops.issingleton l.type = true) → (result = stop .nospace ↔ 0xffff < unionCount l os ns)
  union : ¬(exact = true ∧ Duplicated l os ns) → ¬(NothingNew l os ns ∧ force = false) → ¬Refused l os ns →
    ∃ t ts, result = .ok t ∧ IsUnion l reservelen nslab os ns t ts

variable {l reservelen nslab os ns} {oslab : Bytes}

theorem without_eq_nil : without l os ns = [] ↔ NothingNew l os ns := by
  unfold without NothingNew
  rw [filter_eq_nil_iff]
  simp

/-- No function that writes returns a result of its own. -/
def Silent {α : Type} (x : Exec α) : Prop := ∀ r, x ≠ stop r

theorem Silent.bind {α β : Type} {x : Exec α} {f : α → Exec β} (hx : Silent x) (hf : ∀ a, Silent (f a)) :
    Silent (x >>= f) := by
  intro r h
  cases x with
  | error e =>
    have he : e = .result r := Except.error.inj h
    exact hx r (congrArg Except.error he)
  | ok a => exact hf a r h

theorem silent_ok {α : Type} (a : α) : Silent (Except.ok a) := nofun

theorem silent_poke (mem : Bytes) (p : ℕ) (bs : Bytes) : Silent (poke mem p bs) := by
  intro r h
  unfold poke at h
  split_ifs at h
  · cases h
  · cases h

theorem silent_bytesAt (xs : Bytes) (n : ℕ) : Silent (bytesAt xs n) := by
  intro r h
  unfold bytesAt at h
  split_ifs at h
  · cases h
  · cases h

theorem silent_require (b : Bool) : Silent (require b) := by
  intro r h
  unfold require at h
  split_ifs at h
  · cases h
  · cases h

theorem silent_noteOffset (table : List ℕ) (index offset : ℕ) : Silent (noteOffset l table index offset) := by
  intro r h
  unfold noteOffset setAt at h
  split_ifs at h
  · cases h
  · cases h
  · cases h

theorem silent_copyAll (offsetbase : ℕ) (cs : List Source) (w : Writer) : Silent (copyAll l offsetbase cs w) := by
  induction cs generalizing w with
  | nil => exact silent_ok w
  | cons c cs ih =>
    apply Silent.bind
    · unfold copyRdata
      apply (silent_noteOffset _ _ _).bind
      intro offsettable
      apply (silent_poke _ _ _).bind
      intro mem
      apply (silent_bytesAt _ _).bind
      intro data
      exact (silent_poke _ _ _).bind (fun mem => silent_ok _)
    · exact ih

theorem silent_fillinOffsets (offsetbase : ℕ) (table : List ℕ) (j : ℕ) (mem : Bytes) :
    Silent (fillinOffsets offsetbase table j mem) := by
  induction table generalizing j mem with
  | nil => exact silent_ok mem
  | cons offset table ih =>
    unfold fillinOffsets
    split
    · exact ih j mem
    apply (silent_poke _ _ _).bind
    intro mem
    apply (silent_poke _ _ _).bind
    exact fun mem => ih _ mem

theorem silent_fillIn (offsetbase : ℕ) (w : Writer) : Silent (fillIn l offsetbase w) := by
  unfold fillIn
  split
  · exact silent_fillinOffsets _ _ _ _
  · exact silent_ok _

variable [Std.TransCmp (l.ops.compare l.type)]

theorem merge_eq (heap : Heap) (hold : WellFormed l reservelen oslab os) (hnew : WellFormed l reservelen nslab ns) (exact force : Bool) :
    merge l heap oslab nslab reservelen exact force = if NothingNew l os ns ∧ force = false then stop .unchanged
      else if 1 < unionCount l os ns ∧ l.ops.issingleton l.type = true then stop .singleton
      else if 0xffff < unionCount l os ns then stop .nospace
      else writeMerged l heap oslab nslab reservelen os.length ns.length (without l os ns).length (unionCount l os ns)
        (unionLength l reservelen os ns) := by
  have hcounts : 0 < os.length ∧ 0 < ns.length := ⟨length_pos_of_ne_nil hold.ne, length_pos_of_ne_nil hnew.ne⟩
  have hlength := hold.run.olengthLoop
  rw [length_map, map_rr_draft] at hlength
  have hexact : ¬(exact = true ∧ os.length + (without l os ns).length ≠ (without l os ns).length + os.length) := by
    rintro ⟨-, hne⟩
    exact hne (Nat.add_comm _ _)
  unfold merge
  simp only [hold.count, hnew.count, ok_then, require_true (decide_eq_true hcounts), hlength, hnew.run.newLoop hold]
  rw [if_neg hexact, Nat.add_assoc (reservelen + 2)]
  simp only [length_eq_zero_iff, without_eq_nil]
  rfl

theorem silent_writeMerged (heap : Heap) (hold : WellFormed l reservelen oslab os) (hnew : WellFormed l reservelen nslab ns)
    (tcount tlength : ℕ) :
    Silent (writeMerged l heap oslab nslab reservelen os.length ns.length (without l os ns).length tcount tlength) := by
  obtain ⟨cs, -, hwrite⟩ := writeMerged_eq heap hold hnew tcount tlength
  rw [hwrite]
  apply (silent_poke _ _ _).bind
  intro mem
  apply (silent_poke _ _ _).bind
  intro mem
  apply (silent_copyAll _ _ _).bind
  intro w
  apply (silent_fillIn _ _).bind
  intro mem
  exact (silent_require _).bind (fun _ => silent_ok _)

theorem isUnion_merged (hold : WellFormed l reservelen oslab os) (hnew : WellFormed l reservelen nslab ns)
    (hcount : unionCount l os ns ≤ 0xffff) (hlt : unionLength l reservelen os ns < 2 ^ 32) : IsUnion l reservelen nslab os ns
      (image l (nslab.take reservelen) (table l (merged l os ns)).flatten ((merged l os ns).map Stored.draft)) (merged l os ns) := by
  have hwell := wellFormed_merged hold hnew hcount hlt
  have hlength : (image l (nslab.take reservelen) (table l (merged l os ns)).flatten ((merged l os ns).map Stored.draft)).length =
      unionLength l reservelen os ns := by
    rw [hwell.length, map_rr_merged, storageSize_unionOf]
    rfl
  have hsize := hwell.size
  rw [hlength] at hsize
  refine ⟨hwell, ?_, ?_, hlength, hsize, loadOrder_merged hold hnew⟩
  · rw [map_rr_merged]
    exact map_rr_unionOf os ns
  · exact take_left' hnew.reserve.2

/-- `dns_rdataslab_merge` is the exact union, unless EXACT is set and the slabs overlap, or the length of the union does not fit
32 bits. -/
theorem merge_is_union (heap : Heap) (hold : WellFormed l reservelen oslab os) (hnew : WellFormed l reservelen nslab ns)
    (exact force : Bool) :
    MergesExactly l reservelen nslab os ns exact force (merge l heap oslab nslab reservelen exact force) ↔
      ¬(exact = true ∧ Duplicated l os ns) ∧
        (¬(NothingNew l os ns ∧ force = false) → ¬Refused l os ns → unionLength l reservelen os ns < 2 ^ 32) := by
  rw [merge_eq heap hold hnew]
  have hsilent := silent_writeMerged heap hold hnew (unionCount l os ns) (unionLength l reservelen os ns)
  constructor
  · intro h
    have hdistinct : ¬(exact = true ∧ Duplicated l os ns) := by
      intro hdup
      have hresult := h.notexact.2 hdup
      split_ifs at hresult
      · cases hresult
      · cases hresult
      · cases hresult
      · exact hsilent _ hresult
    refine ⟨hdistinct, fun hsome hallowed => ?_⟩
    obtain ⟨t, ts, hresult, -⟩ := h.union hdistinct hsome hallowed
    by_contra hge
    rw [if_neg hsome, if_neg (fun hs => hallowed (Or.inl hs)), if_neg (fun hn => hallowed (Or.inr hn))] at hresult
    exact writeMerged_overrun heap hold hnew rfl (Nat.not_lt.1 hge) hresult
  · rintro ⟨hdistinct, hlt⟩
    refine ⟨⟨fun h => ?_, fun h => absurd h hdistinct⟩, fun _ => ⟨fun h => ?_, fun h => if_pos h⟩, fun _ hsome => ⟨fun h => ?_, fun h => ?_⟩,
      fun _ hsome hsingle => ⟨fun h => ?_, fun h => ?_⟩, fun _ hsome hallowed => ?_⟩
    · split_ifs at h
      · cases h
      · cases h
      · cases h
      · exact absurd h (hsilent _)
    · split_ifs at h with h1
      · exact h1
      · cases h
      · cases h
      · exact absurd h (hsilent _)
    · rw [if_neg hsome] at h
      split_ifs at h with h1
      · exact h1
      · cases h
      · exact absurd h (hsilent _)
    · rw [if_neg hsome, if_pos h]
    · rw [if_neg hsome, if_neg hsingle] at h
      split_ifs at h with h1
      · exact h1
      · exact absurd h (hsilent _)
    · rw [if_neg hsome, if_neg hsingle, if_pos h]
    · have hsingle : ¬(1 < unionCount l os ns ∧ l.ops.issingleton l.type = true) := fun hs => hallowed (Or.inl hs)
      have hcount : ¬0xffff < unionCount l os ns := fun hn => hallowed (Or.inr hn)
      rw [if_neg hsome, if_neg hsingle, if_neg hcount]
      exact ⟨_, _, writeMerged_ok heap hold hnew rfl (hlt hsome hallowed), isUnion_merged hold hnew (Nat.not_lt.1 hcount) (hlt hsome hallowed)⟩

end Merge

/-! ### Instances -/

/-- Rdata compared as bytes, in the fixed layout, of type TXT. -/
def textLayout : Layout := ⟨⟨fun _ a b => compare a b, fun _ => false⟩, true, 16⟩

instance : Std.TransCmp (textLayout.ops.compare textLayout.type) := inferInstanceAs (Std.TransCmp (compare : Rdata → Rdata → Ordering))

def zeroHeap : Heap := ⟨fun n => replicate n 0, fun _ => length_replicate⟩

/-- The record `[1]` alone. -/
def oneText : List Stored := [⟨0, ⟨0, [1]⟩⟩]

/-- The records `[1]` and `[2]`. -/
def twoTexts : List Stored := [⟨0, ⟨0, [1]⟩⟩, ⟨1, ⟨0, [2]⟩⟩]

/-- The slab of some records, with nothing reserved. -/
def textSlab (rs : List Stored) : Bytes := image textLayout [] (table textLayout rs).flatten (rs.map Stored.draft)

theorem wellFormed_oneText : WellFormed textLayout 0 (textSlab oneText) oneText :=
  ⟨by decide, by decide, by decide, by decide, fun _ => by decide, ⟨[], rfl, rfl⟩, by decide⟩

theorem wellFormed_twoTexts : WellFormed textLayout 0 (textSlab twoTexts) twoTexts :=
  ⟨by decide, by decide, by decide, by decide, fun _ => by decide, ⟨[], rfl, rfl⟩, by decide⟩

/-- Without EXACT, `[1]` and `[1]`, `[2]` are merged. -/
theorem merge_is_union_texts : ∃ t ts, merge textLayout zeroHeap (textSlab oneText) (textSlab twoTexts) 0 false false = .ok t ∧
    IsUnion textLayout 0 (textSlab twoTexts) oneText twoTexts t ts := by
  have h := (merge_is_union zeroHeap wellFormed_oneText wellFormed_twoTexts false false).2 ⟨by simp, fun _ _ => by decide⟩
  apply h.union
  · simp
  · decide
  · unfold Refused
    decide

/-- With EXACT they are merged too, though the old slab has `[1]`. -/
theorem merge_exact_ignored : WellFormed textLayout 0 (textSlab oneText) oneText ∧ WellFormed textLayout 0 (textSlab twoTexts) twoTexts ∧
    merge textLayout zeroHeap (textSlab oneText) (textSlab twoTexts) 0 true false = .ok (textSlab twoTexts) ∧
    ¬MergesExactly textLayout 0 (textSlab twoTexts) oneText twoTexts true false
      (merge textLayout zeroHeap (textSlab oneText) (textSlab twoTexts) 0 true false) := by
  have hmerge : merge textLayout zeroHeap (textSlab oneText) (textSlab twoTexts) 0 true false = .ok (textSlab twoTexts) := by decide
  refine ⟨wellFormed_oneText, wellFormed_twoTexts, hmerge, fun h => ?_⟩
  have hdup : Duplicated textLayout oneText twoTexts := by
    unfold Duplicated
    decide
  have hresult := h.notexact.2 ⟨rfl, hdup⟩
  rw [hmerge] at hresult
  cases hresult

end Bind9.RawSlab
