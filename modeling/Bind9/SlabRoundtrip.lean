import Bind9.SlabFromrdataset

/-! # Iterating over a slab

The records of a well-formed slab as the iteration in DNSSEC order, the iteration in load order and `rdata_from_slab` see them, and
the round trip through `dns_rdataslab_fromrdataset`. -/

namespace Bind9.RawSlab

open List

/-! ### The iteration in load order -/

/-- Four bytes at `p`. -/
def peek32 (slab : Bytes) (p : ℕ) : Exec ℕ := do
  let a ← byteAt slab p
  let b ← byteAt slab (p + 1)
  let c ← byteAt slab (p + 2)
  let d ← byteAt slab (p + 3)
  pure (a.toNat * 2 ^ 24 + b.toNat * 2 ^ 16 + c.toNat * 2 ^ 8 + d.toNat)

/-- `rdataset_current` of `rbtdb.c` with `DNS_RDATASETATTR_LOADORDER`, at the entry `j` of the offset table. -/
def currentLoadorder (l : Layout) (slab : Bytes) (reservelen j : ℕ) : Exec SlabRdata := do
  let offset ← peek32 slab (reservelen + 2 + 4 * j)
  current l slab ⟨0, reservelen + offset⟩

section Reading

variable {l : Layout} {reservelen cur : ℕ} {slab rest : Bytes} {rs : List Stored}

theorem peek32_drop {v : ℕ} (hv : v < 2 ^ 32) (h : slab.drop cur = uint32Bytes v ++ rest) : peek32 slab cur = .ok v := by
  have h0 := byteAt_drop h 0
  have h1 := byteAt_drop h 1
  have h2 := byteAt_drop h 2
  have h3 := byteAt_drop h 3
  unfold peek32
  rw [Nat.add_zero] at h0
  rw [h0, h1, h2, h3]
  show Except.ok ((UInt8.ofNat (v / 16777216)).toNat * 2 ^ 24 + (UInt8.ofNat (v / 65536 % 256)).toNat * 2 ^ 16 +
    (UInt8.ofNat (v / 256 % 256)).toNat * 2 ^ 8 + (UInt8.ofNat (v % 256)).toNat) = Except.ok v
  simp only [UInt8.toNat_ofNat']
  congr 1
  omega

/-- The entry `j` of a table of four bytes each. -/
theorem drop_flatten {T : List Bytes} (hfour : ∀ e ∈ T, e.length = 4) {j : ℕ} {e : Bytes} (he : T[j]? = some e) :
    ∃ rest, T.flatten.drop (4 * j) = e ++ rest := by
  induction T generalizing j with
  | nil => cases he
  | cons a T ih =>
    cases j with
    | zero =>
      cases he
      exact ⟨T.flatten, rfl⟩
    | succ j =>
      obtain ⟨rest, hrest⟩ := ih (fun x hx => hfour x (mem_cons_of_mem _ hx)) he
      have hskip : (a ++ T.flatten).drop 4 = T.flatten := drop_left' (hfour a mem_cons_self)
      refine ⟨rest, ?_⟩
      rw [flatten_cons, Nat.mul_succ, Nat.add_comm, ← drop_drop, hskip, hrest]

theorem Run.append {gs hs : List Draft} (h : Run l slab cur (gs ++ hs)) : Run l slab (cur + recordsSize l (gs.map Draft.rr)) hs := by
  induction gs generalizing cur with
  | nil => exact h
  | cons g gs ih =>
    have hrest := ih h.tail
    rw [map_cons, recordsSize_cons, ← Nat.add_assoc]
    exact hrest

theorem WellFormed.offset (h : WellFormed l reservelen slab rs) (hfixed : l.fixed = true) {s : Stored} (hs : s ∈ rs) :
    ∃ offset rest, peek32 slab (reservelen + 2 + 4 * s.order) = .ok offset ∧ At l slab (reservelen + offset) s.draft rest := by
  obtain ⟨a, b, rfl⟩ := append_of_mem hs
  have hrun := h.run
  have hsize : tableSize l (a ++ s :: b).length = 4 * (a ++ s :: b).length := if_pos hfixed
  rw [map_append, map_cons] at hrun
  have hat : At l slab _ s.draft _ := hrun.append.head
  have hnodup : ((a ++ s :: b).map Stored.order).Nodup := (h.orders hfixed).nodup_iff.2 nodup_range
  have hne : ∀ x ∈ a.map Stored.draft, x.key ≠ s.draft.key := by
    intro x hx
    obtain ⟨y, hy, rfl⟩ := mem_map.1 hx
    rw [map_append, map_cons] at hnodup
    exact (nodup_append.1 hnodup).2.2 y.order (mem_map_of_mem hy) s.order mem_cons_self
  have hplace := @place_ranked l (a.map Stored.draft) (b.map Stored.draft) s.draft Draft.key hne (2 + 4 * (a ++ s :: b).length)
  have hmap : ((a.map Stored.draft ++ s.draft :: b.map Stored.draft).map (fun x => (⟨x.key, x.rr⟩ : Stored))) = a ++ s :: b := by
    rw [← map_cons, ← map_append]
    exact stored_draft (a ++ s :: b)
  rw [hmap] at hplace
  have hentry : (table l (a ++ s :: b))[s.order]? =
      some (uint32Bytes (2 + 4 * (a ++ s :: b).length + recordsSize l ((a.map Stored.draft).map Draft.rr))) := by
    unfold table
    rw [if_pos hfixed, getElem?_map, getElem?_range (h.order_lt hfixed s hs)]
    exact congrArg (fun p => some (uint32Bytes p)) hplace
  have hfour : ∀ e ∈ table l (a ++ s :: b), e.length = 4 := by
    intro e he
    unfold table at he
    rw [if_pos hfixed] at he
    obtain ⟨j, -, rfl⟩ := mem_map.1 he
    rfl
  obtain ⟨rest, hrest⟩ := drop_flatten hfour hentry
  have hle : 4 * s.order ≤ (table l (a ++ s :: b)).flatten.length := by
    have hlt := h.order_lt hfixed s hs
    rw [length_table, hsize]
    omega
  have hdrop : slab.drop (reservelen + 2 + 4 * s.order) =
      uint32Bytes (2 + 4 * (a ++ s :: b).length + recordsSize l ((a.map Stored.draft).map Draft.rr)) ++
        (rest ++ records l ((a ++ s :: b).map Stored.draft)) := by
    have hskip : (uint16Bytes (a ++ s :: b).length ++ ((table l (a ++ s :: b)).flatten ++ records l ((a ++ s :: b).map Stored.draft))).drop 2 =
        (table l (a ++ s :: b)).flatten ++ records l ((a ++ s :: b).map Stored.draft) := rfl
    rw [← drop_drop, ← drop_drop, h.drop, hskip, drop_append_of_le_length hle, hrest, append_assoc]
  have hlt : 2 + 4 * (a ++ s :: b).length + recordsSize l ((a.map Stored.draft).map Draft.rr) < 2 ^ 32 := by
    have hlen := h.length
    have hbound := h.length_lt
    rw [storageSize_eq, length_map, hsize, map_append, recordsSize_append] at hlen
    rw [map_rr_draft]
    omega
  have hplace' : reservelen + (2 + 4 * (a ++ s :: b).length + recordsSize l ((a.map Stored.draft).map Draft.rr)) =
      reservelen + 2 + tableSize l (a ++ s :: b).length + recordsSize l ((a.map Stored.draft).map Draft.rr) := by omega
  rw [← hplace'] at hat
  exact ⟨_, _, peek32_drop hlt hdrop, hat⟩

theorem WellFormed.currentLoadorder (h : WellFormed l reservelen slab rs) (hfixed : l.fixed = true) {s : Stored} (hs : s ∈ rs) :
    ∃ e, currentLoadorder l slab reservelen s.order = .ok e ∧ dataOf slab e = .ok s.rr.data := by
  obtain ⟨offset, rest, hoffset, hat⟩ := h.offset hfixed hs
  refine ⟨_, ?_, hat.dataOf (s.rr.offline l)⟩
  unfold RawSlab.currentLoadorder
  rw [hoffset, ok_then]
  exact hat.current 0

/-! ### The iteration in DNSSEC order -/

/-- The cursors from a record on. -/
theorem Run.walk {gs : List Draft} {g : Draft} (h : Run l slab cur (g :: gs)) : ∃ cs, walk l slab (gs.length + 1) ⟨gs.length, cur⟩ = .ok cs ∧
    Forall₂ (fun c g => ∃ rest, At l slab c.raw g rest) cs (g :: gs) := by
  induction gs generalizing g cur with
  | nil => exact ⟨[⟨0, cur⟩], rfl, .cons ⟨_, h.head⟩ .nil⟩
  | cons g' gs ih =>
    obtain ⟨cs, hwalk, hcs⟩ := ih h.tail
    refine ⟨⟨gs.length + 1, cur⟩ :: cs, ?_, .cons ⟨_, h.head⟩ hcs⟩
    have hnext : next l slab ⟨gs.length + 1, cur⟩ = .ok (some ⟨gs.length, cur + recordSize l g.rr⟩) := by
      have hraw : cur + (g.rr.body l).length + headerSize l = cur + recordSize l g.rr := by
        unfold recordSize
        omega
      unfold RawSlab.next
      rw [if_neg (Nat.succ_ne_zero _)]
      simp only [h.head.length, ok_then, hraw]
      rfl
    rw [length_cons, RawSlab.walk]
    simp only [hnext, ok_then, hwalk]
    rfl

theorem WellFormed.cursors (h : WellFormed l reservelen slab rs) : ∃ cs, cursors l slab reservelen = .ok cs ∧
    Forall₂ (fun c g => ∃ rest, At l slab c.raw g rest) cs (rs.map Stored.draft) := by
  obtain ⟨s, t, rfl⟩ := exists_cons_of_ne_nil h.ne
  have hrun := h.run
  rw [map_cons] at hrun
  obtain ⟨cs, hwalk, hcs⟩ := hrun.walk
  rw [length_map] at hwalk
  refine ⟨cs, ?_, hcs⟩
  unfold RawSlab.cursors RawSlab.first
  rw [h.count]
  simp only [ok_then]
  rw [if_neg (by simp)]
  exact hwalk

end Reading

/-! ### The round trip -/

section Roundtrip

variable {l : Layout} {reservelen : ℕ} {rdataset : List Item} {slab : Bytes}

/-- What `rdataset_current` shows at a cursor. -/
def Shows (l : Layout) (slab : Bytes) (c : Cursor) (r : Item) : Prop :=
  ∃ e, current l slab c = .ok e ∧ dataOf slab e = .ok r.data ∧ (l.type = rrsig → e.offline = r.offline)

/-- The slab of an rdataset, with the cursors of its iteration and what they show. -/
structure RoundTrip (l : Layout) (reservelen : ℕ) (rdataset : List Item) (slab : Bytes) (cs : List Cursor) (items : List Item) : Prop where
  iterated : cursors l slab reservelen = .ok cs
  shown : Forall₂ (Shows l slab) cs items
  rising : items.Pairwise (fun r s => l.ops.compare l.type r.data s.data = .lt)
  subset : items ⊆ rdataset
  covers : ∀ r ∈ rdataset, ∃ s ∈ items, l.ops.compare l.type r.data s.data = .eq
  places : l.fixed = true → (firstOccurrences l rdataset).length = items.length
  loadOrder : l.fixed = true → ∀ j r, (firstOccurrences l rdataset)[j]? = some r → ∃ e d, currentLoadorder l slab reservelen j = .ok e ∧
    dataOf slab e = .ok d ∧ d ∈ items.map Item.data ∧ l.ops.compare l.type d r.data = .eq
  decoders : ∀ c ∈ cs, ∃ e next, current l slab c = .ok e ∧ rdataFromSlab l slab c.raw = .ok (e, next)

theorem exists_of_forall₂ {α β : Type} {R : α → β → Prop} {xs : List α} {ys : List β} (h : Forall₂ R xs ys) :
    ∀ x ∈ xs, ∃ y ∈ ys, R x y := by
  induction h with
  | nil => exact fun x hx => absurd hx not_mem_nil
  | cons hxy _ ih =>
    intro x hx
    obtain rfl | hx := mem_cons.1 hx
    · exact ⟨_, mem_cons_self, hxy⟩
    · obtain ⟨y, hy, hxy'⟩ := ih x hx
      exact ⟨y, mem_cons_of_mem _ hy, hxy'⟩

/-- Where both decoders look for the flag in the same place. -/
theorem seenOffline_eq (h : l.type = rrsig → l.fixed = false) (g : Draft) : seenOffline l g = g.rr.offline l := by
  unfold seenOffline Record.offline
  by_cases hrrsig : l.type = rrsig
  · rw [if_pos hrrsig, if_pos hrrsig, h hrrsig]
    rfl
  · rw [if_neg hrrsig, if_neg hrrsig]

theorem At.decoders {c : Cursor} {g : Draft} {rest : Bytes} (h : At l slab c.raw g rest) (hseen : seenOffline l g = g.rr.offline l) :
    ∃ e next, RawSlab.current l slab c = .ok e ∧ RawSlab.rdataFromSlab l slab c.raw = .ok (e, next) := by
  have hdecoded := h.rdataFromSlab
  rw [hseen] at hdecoded
  exact ⟨_, _, h.current c.left, hdecoded⟩

/-- Elements with distinct numbers can be listed by them. -/
theorem exists_rising {α : Type} (f : α → ℕ) {xs : List α} (h : (xs.map f).Nodup) :
    ∃ ys : List α, ys.Perm xs ∧ ys.Pairwise (fun a b => f a < f b) := by
  refine ⟨xs.mergeSort (fun a b => decide (f a ≤ f b)), mergeSort_perm _ _, ?_⟩
  have hle := (@pairwise_mergeSort α (fun a b => decide (f a ≤ f b))
    (fun a b c hab hbc => decide_eq_true (le_trans (of_decide_eq_true hab) (of_decide_eq_true hbc)))
    (fun a b => by simpa using Nat.le_total (f a) (f b)) xs).imp of_decide_eq_true
  have hnodup : ((xs.mergeSort (fun a b => decide (f a ≤ f b))).map f).Nodup := ((mergeSort_perm _ _).map f).nodup_iff.2 h
  exact (hle.and (pairwise_map.1 hnodup)).imp (fun hab => lt_of_le_of_ne hab.1 hab.2)

theorem WellFormed.orders_inOrder {rs : List Stored} (h : WellFormed l reservelen slab rs) (hfixed : l.fixed = true) :
    (inOrder rs).map Stored.order = range rs.length := by
  have hrising : ((inOrder rs).map Stored.order).Pairwise (· < ·) := pairwise_map.2 (h.inOrder_rising hfixed)
  refine Perm.eq_of_pairwise (fun a b _ _ hab hba => absurd hab (Nat.lt_asymm hba)) hrising pairwise_lt_range ?_
  exact ((inOrder_perm rs).map Stored.order).trans (h.orders hfixed)

variable [Std.TransCmp (l.ops.compare l.type)] {q : Diff.Qsort} {P : UInt8 → Prop} {gs : List Draft}

theorem loadOrder_first (hne : rdataset ≠ []) (hwell : WellFormed l reservelen slab (ranked gs)) (hfixed : l.fixed = true)
    (hstores : Forall₂ (Stores l P) (kept l q rdataset) gs) : (firstOccurrences l rdataset).length = gs.length ∧
      ∀ j r, (firstOccurrences l rdataset)[j]? = some r → ∃ e d, currentLoadorder l slab reservelen j = .ok e ∧
        dataOf slab e = .ok d ∧ d ∈ gs.map (fun g => g.rr.data) ∧ l.ops.compare l.type d r.data = .eq := by
  obtain ⟨ks, hks, hrising⟩ := exists_rising Xrdata.order (kept_orders (l := l) (q := q) hne)
  obtain ⟨hs, hstores', hperm⟩ := perm_comp_forall₂ hks hstores
  have hkeys : hs.map Draft.key = ks.map Xrdata.order := stores_map hstores' (fun _ _ h => h.key)
  have hdata : hs.map (fun g => g.rr.data) = ks.map (fun k => k.rdata.data) := stores_map hstores' (fun _ _ h => h.data)
  have hfirst := kept_firstOccurrences hne hks hrising
  have hsorted : hs.Pairwise (fun a b => a.key < b.key) := by
    have hpair : (ks.map Xrdata.order).Pairwise (· < ·) := pairwise_map.2 hrising
    rw [← hkeys] at hpair
    exact pairwise_map.1 hpair
  have hload := loadOrder_ranked hperm hsorted
  have hlen : (firstOccurrences l rdataset).length = hs.length := by
    rw [← hfirst.length_eq]
    exact hstores'.length_eq
  refine ⟨hlen.trans hperm.length_eq, fun j r hr => ?_⟩
  obtain ⟨hj, -⟩ := List.getElem?_eq_some_iff.1 hr
  -- the record with the order `j`
  have horders := hwell.orders_inOrder hfixed
  have hcount : (inOrder (ranked gs)).length = hs.length := by
    rw [(inOrder_perm _).length_eq, length_ranked, hperm.length_eq]
  obtain ⟨s, hs'⟩ : ∃ s, (inOrder (ranked gs))[j]? = some s := ⟨_, getElem?_eq_getElem (by omega)⟩
  have horder : s.order = j := by
    have hget := congrArg (fun xs => xs[j]?) horders
    simp only [getElem?_map, hs', Option.map_some] at hget
    rw [getElem?_range (by rw [length_ranked]; have := hperm.length_eq; omega)] at hget
    exact Option.some.inj hget
  have hrr : ((hs.map (fun g => g.rr.data))[j]?) = some s.rr.data := by
    have hget := congrArg (fun xs : List Record => (xs.map Record.data)[j]?) hload
    rw [loadOrder_eq] at hget
    simp only [map_map, getElem?_map, hs', Option.map_some] at hget
    rw [getElem?_map]
    exact hget.symm
  obtain ⟨e, hcurrent, hdataOf⟩ := hwell.currentLoadorder hfixed ((inOrder_perm _).mem_iff.1 (mem_of_getElem? hs'))
  rw [horder] at hcurrent
  refine ⟨e, s.rr.data, hcurrent, hdataOf, ?_, ?_⟩
  · rw [(hperm.symm.map _).mem_iff]
    exact mem_of_getElem? hrr
  · rw [hdata, getElem?_map] at hrr
    cases hk : ks[j]? with
    | none =>
      rw [hk] at hrr
      cases hrr
    | some k =>
      rw [hk] at hrr
      have hkr := (forall₂_iff_get.1 hfirst).2 j (List.getElem?_eq_some_iff.1 hk).1 hj
      simp only [get_eq_getElem, (List.getElem?_eq_some_iff.1 hk).2, (List.getElem?_eq_some_iff.1 hr).2] at hkr
      rw [← Option.some.inj hrr]
      exact hkr

/-- What an iteration over the slab of an rdataset shows, as far as the decoders agree. -/
theorem roundTrip_of (hne : rdataset ≠ []) (hwell : WellFormed l reservelen slab (ranked gs))
    (hstores : Forall₂ (Stores l P) (kept l q rdataset) gs) {items : List Item}
    (hitems : Forall₂ (fun g r => r.data = g.rr.data ∧ (l.type = rrsig → r.offline = g.rr.offline l)) gs items)
    (hsub : items ⊆ rdataset) (hseen : l.type = rrsig → l.fixed = false) : ∃ cs, RoundTrip l reservelen rdataset slab cs items := by
  obtain ⟨cs, hcs, hat⟩ := hwell.cursors
  have hdata : items.map Item.data = (kept l q rdataset).map (fun k => k.rdata.data) := by
    have hgs : gs.map (fun g => g.rr.data) = (kept l q rdataset).map (fun k => k.rdata.data) := stores_map hstores (fun _ _ h => h.data)
    rw [← hgs]
    clear hgs hstores hwell hat hsub
    induction hitems with
    | nil => rfl
    | cons hgr _ ih => rw [map_cons, map_cons, ih, hgr.1]
  have hitemsData : items.map Item.data = gs.map (fun g => g.rr.data) :=
    hdata.trans (stores_map hstores (fun _ _ h => h.data)).symm
  have hspec := kept_spec (l := l) (q := q) hne
  refine ⟨cs, hcs, ?_, ?_, hsub, fun r hr => ?_, fun hfixed => ?_, fun hfixed j r hr => ?_, fun c hc => ?_⟩
  · have hdraft : (ranked gs).map Stored.draft = gs.map (fun g => ⟨rank gs g.key, uint16Bytes (rank gs g.key), g.rr⟩) := by
      unfold ranked
      rw [map_map]
      rfl
    rw [hdraft, forall₂_map_right_iff] at hat
    refine forall₂_iff_get.2 ⟨hat.length_eq.trans hitems.length_eq, fun i hi hi' => ?_⟩
    obtain ⟨rest, hone⟩ := (forall₂_iff_get.1 hat).2 i hi (by rw [hitems.length_eq]; exact hi')
    obtain ⟨hd, hflag⟩ := (forall₂_iff_get.1 hitems).2 i (by rw [hitems.length_eq]; exact hi') hi'
    refine ⟨_, hone.current _, ?_, fun hrrsig => (hflag hrrsig).symm⟩
    rw [hd]
    exact hone.dataOf _
  · have hpair : ((kept l q rdataset).map (fun k => k.rdata.data)).Pairwise (fun a b => l.ops.compare l.type a b = .lt) :=
      pairwise_map.2 hspec.rising
    rw [← hdata] at hpair
    exact pairwise_map.1 hpair
  · obtain ⟨k, hk, hrk⟩ := kept_covers (l := l) (q := q) hne hr
    have hmem : k.rdata.data ∈ items.map Item.data := by
      rw [hdata]
      exact mem_map.2 ⟨k, hk, rfl⟩
    obtain ⟨s, hs, heq⟩ := mem_map.1 hmem
    exact ⟨s, hs, by rw [heq]; exact hrk⟩
  · rw [(loadOrder_first hne hwell hfixed hstores).1]
    exact hitems.length_eq
  · rw [hitemsData]
    exact (loadOrder_first hne hwell hfixed hstores).2 j r hr
  · obtain ⟨g, -, rest, hone⟩ := exists_of_forall₂ hat c hc
    exact hone.decoders (seenOffline_eq hseen g)

end Roundtrip

/-! ### `dns_rdataslab_fromrdataset` -/

section Fromrdataset

variable {l : Layout} {reservelen : ℕ} {rdataset : List Item} {q : Diff.Qsort} {P : UInt8 → Prop}

/-- Any choice of rdata of which no two are equal fits into a slab whose length has 32 bits. -/
def Fits (l : Layout) (reservelen : ℕ) (rdataset : List Item) : Prop := ∀ c : List Item, c ⊆ rdataset →
  c.Pairwise (fun r s => l.ops.compare l.type r.data s.data ≠ .eq) → reservelen + 2 + storageOf l c < 2 ^ 32

theorem or_offline (fresh : UInt8) : (fresh ||| OFFLINE) &&& OFFLINE = OFFLINE := by
  apply UInt8.toBitVec_inj.1
  ext i hi
  have h : i = 0 → fresh.toBitVec[i] = true ∨ i = 0 := Or.inr
  simpa [OFFLINE] using h

variable {g : Draft}

/-- The flag of a record is lost never, but it may be found where it was not. -/
theorem Stores.offline {k : Xrdata} (h : Stores l P k g) (hrrsig : l.type = rrsig) (hoffline : k.rdata.offline = true) :
    g.rr.offline l = true := by
  obtain ⟨fresh, -, hmark⟩ := h.mark hrrsig
  unfold flagOf at hmark
  rw [hoffline, if_pos rfl] at hmark
  unfold Record.offline
  rw [if_pos hrrsig, hmark, or_offline]
  rfl

theorem storageOf_subperm {c d : List Item} (h : c.Subperm d) : storageOf l c ≤ storageOf l d := by
  obtain ⟨c', hperm, hsub⟩ := h
  unfold storageOf
  rw [← (hperm.map _).sum_eq]
  exact (hsub.map _).sum_le_sum (fun _ _ => Nat.zero_le _)

theorem exists_items {ks : List Xrdata} {gs : List Draft} (hstores : Forall₂ (Stores l P) ks gs)
    (hkept : ∀ k ∈ ks, k.rdata ∈ rdataset) (hcopies : l.type = rrsig → ∀ r ∈ rdataset, (⟨r.data, true⟩ : Item) ∈ rdataset) : ∃ items,
    Forall₂ (fun g r => r.data = g.rr.data ∧ (l.type = rrsig → r.offline = g.rr.offline l)) gs items ∧ items ⊆ rdataset := by
  induction hstores with
  | nil => exact ⟨[], .nil, fun _ h => absurd h not_mem_nil⟩
  | @cons k g ks gs hkg _ ih =>
    obtain ⟨items, hitems, hsub⟩ := ih (fun x hx => hkept x (mem_cons_of_mem _ hx))
    have hk := hkept k mem_cons_self
    by_cases hrrsig : l.type = rrsig
    · refine ⟨⟨g.rr.data, g.rr.offline l⟩ :: items, .cons ⟨rfl, fun _ => rfl⟩ hitems, cons_subset.2 ⟨?_, hsub⟩⟩
      rw [hkg.data]
      cases hflag : g.rr.offline l with
      | true => exact hcopies hrrsig _ hk
      | false =>
        have hoff : k.rdata.offline = false := by
          cases hoff : k.rdata.offline with
          | false => rfl
          | true => rw [hkg.offline hrrsig hoff] at hflag; cases hflag
        rw [← hoff]
        exact hk
    · exact ⟨k.rdata :: items, .cons ⟨hkg.data.symm, fun h => absurd h hrrsig⟩ hitems, cons_subset.2 ⟨hk, hsub⟩⟩

/-- Memory that is full of ones. -/
def onesHeap : Heap := ⟨fun n => replicate n 0xff, fun _ => length_replicate⟩

theorem mem_onesHeap (n : ℕ) : ∀ b ∈ onesHeap.get n, b = 0xff := fun _ hb => eq_of_mem_replicate hb

theorem Stores.offline_ones {k : Xrdata} (h : Stores l (fun b => b = 0xff) k g) (hrrsig : l.type = rrsig) :
    g.rr.offline l = true := by
  obtain ⟨fresh, rfl, hmark⟩ := h.mark hrrsig
  unfold Record.offline
  rw [if_pos hrrsig, hmark]
  unfold flagOf
  split <;> rfl

theorem WellFormed.cursor {slab : Bytes} {gs : List Draft} (h : WellFormed l reservelen slab (ranked gs)) {cs : List Cursor}
    (hcs : RawSlab.cursors l slab reservelen = .ok cs) (hg : g ∈ gs) :
    ∃ c ∈ cs, ∃ rest, At l slab c.raw (Stored.draft ⟨rank gs g.key, g.rr⟩) rest := by
  obtain ⟨cs', hcs', hat⟩ := h.cursors
  rw [hcs] at hcs'
  obtain rfl := Except.ok.inj hcs'
  have hmem : Stored.draft ⟨rank gs g.key, g.rr⟩ ∈ (ranked gs).map Stored.draft :=
    mem_map_of_mem (mem_map_of_mem (f := fun g : Draft => (⟨rank gs g.key, g.rr⟩ : Stored)) hg)
  obtain ⟨c, hc, hone⟩ := exists_of_forall₂ hat.flip _ hmem
  exact ⟨c, hc, hone⟩

variable [Std.TransCmp (l.ops.compare l.type)]

theorem fits_of (hacc : Accepted l rdataset) (h : ∀ q, ∃ heap slab, fromrdataset l q heap reservelen rdataset = .ok (slab, slab.length)) :
    Fits l reservelen rdataset := by
  intro c hsub hdistinct
  obtain ⟨q, hq⟩ := exists_kept hsub hdistinct
  obtain ⟨heap, slab, hslab⟩ := h q
  have hfits := fromrdataset_fits hacc hslab
  have hnodup : c.Nodup := hdistinct.imp (fun {r s} hne heq => hne (by rw [heq]; exact Std.ReflCmp.compare_self))
  have hle : storageOf l c ≤ storageOf l ((kept l q rdataset).map Xrdata.rdata) := by
    apply storageOf_subperm
    apply subperm_of_subset hnodup
    intro r hr
    obtain ⟨k, hk, rfl⟩ := hq r hr
    exact mem_map_of_mem hk
  omega

theorem Fits.kept (h : Fits l reservelen rdataset) (hne : rdataset ≠ []) (q : Diff.Qsort) :
    reservelen + 2 + storageOf l ((RawSlab.kept l q rdataset).map Xrdata.rdata) < 2 ^ 32 := by
  apply h
  · intro r hr
    obtain ⟨k, hk, rfl⟩ := mem_map.1 hr
    exact mem_of_kept hne hk
  · apply pairwise_map.2
    refine (kept_spec hne).rising.imp (fun {a b} hlt heq => ?_)
    have hlt' : l.ops.compare l.type a.rdata.data b.rdata.data = .lt := hlt
    rw [heq] at hlt'
    cases hlt'

/-- What goes through `dns_rdataslab_fromrdataset` comes back, unless a slab of 2^32 bytes or more is needed, or the type is RRSIG and
the layout is the fixed one or some RRSIG is not OFFLINE. -/
theorem fromrdataset_round_trip (hacc : Accepted l rdataset) :
    (∀ q heap, ∃ slab cs items, fromrdataset l q heap reservelen rdataset = .ok (slab, slab.length) ∧
      RoundTrip l reservelen rdataset slab cs items) ↔
      Fits l reservelen rdataset ∧ (l.type = rrsig → l.fixed = false ∧ ∀ r ∈ rdataset, (⟨r.data, true⟩ : Item) ∈ rdataset) := by
  constructor
  · intro h
    have hfits : Fits l reservelen rdataset := by
      apply fits_of hacc
      intro q
      obtain ⟨slab, -, -, hslab, -⟩ := h q zeroHeap
      exact ⟨zeroHeap, slab, hslab⟩
    -- the slab in memory that is full of ones
    have hones : ∀ q, ∃ slab gs cs items, WellFormed l reservelen slab (ranked gs) ∧
        Forall₂ (Stores l (fun b => b = 0xff)) (kept l q rdataset) gs ∧ RoundTrip l reservelen rdataset slab cs items := by
      intro q
      obtain ⟨slab, gs, hslab, hwell, hstores⟩ := @fromrdataset_ok l reservelen rdataset q onesHeap _ hacc _ mem_onesHeap (hfits.kept hacc.ne q)
      obtain ⟨slab', cs, items, hslab', htrip⟩ := h q onesHeap
      rw [hslab] at hslab'
      obtain ⟨rfl, -⟩ := Prod.mk.inj (Except.ok.inj hslab')
      exact ⟨slab, gs, cs, items, hwell, hstores, htrip⟩
    refine ⟨hfits, fun hrrsig => ⟨?_, fun r hr => ?_⟩⟩
    · obtain ⟨slab, gs, cs, items, hwell, hstores, htrip⟩ := hones .mergeSort
      cases hfixed : l.fixed with
      | false => rfl
      | true =>
        -- the flag of the first record in load order is looked for in its order, which is zero
        obtain ⟨s, hs, horder⟩ := mem_map.1 ((hwell.orders hfixed).mem_iff.2
          (mem_range.2 (length_pos_of_ne_nil hwell.ne)))
        obtain ⟨g, hg, rfl⟩ := mem_map.1 hs
        obtain ⟨k, -, hkg⟩ := exists_of_forall₂ hstores.flip g hg
        obtain ⟨c, hc, rest, hat⟩ := hwell.cursor htrip.iterated hg
        obtain ⟨e, next, hcurrent, hdecoded⟩ := htrip.decoders c hc
        have he := Except.ok.inj ((hat.current c.left).symm.trans hcurrent)
        have he' := Except.ok.inj (hat.rdataFromSlab.symm.trans hdecoded)
        have hoffline := congrArg SlabRdata.offline (he.trans (congrArg Prod.fst he').symm)
        have hseen : seenOffline l (Stored.draft ⟨rank gs g.key, g.rr⟩) = false := by
          have hzero : rank gs g.key = 0 := horder
          unfold seenOffline
          rw [if_pos hrrsig, if_pos hfixed]
          show ((uint16Bytes (rank gs g.key)).headD 0 &&& OFFLINE != 0) = false
          rw [hzero]
          rfl
        have hshown : g.rr.offline l = seenOffline l (Stored.draft ⟨rank gs g.key, g.rr⟩) := hoffline
        rw [hkg.offline_ones hrrsig, hseen] at hshown
        cases hshown
    · obtain ⟨q, hq⟩ := @exists_kept l rdataset _ [r] (fun s hs => by rw [mem_singleton.1 hs]; exact hr) (pairwise_singleton _ _)
      obtain ⟨k, hk, hkr⟩ := hq r (mem_singleton_self r)
      obtain ⟨slab, gs, cs, items, hwell, hstores, htrip⟩ := hones q
      obtain ⟨g, hg, hkg⟩ := exists_of_forall₂ hstores k hk
      obtain ⟨c, hc, rest, hat⟩ := hwell.cursor htrip.iterated hg
      obtain ⟨item, hitem, e, hcurrent, hdata, hflag⟩ := exists_of_forall₂ htrip.shown c hc
      have he := Except.ok.inj ((hat.current c.left).symm.trans hcurrent)
      rw [← he, hat.dataOf] at hdata
      have hitemdata : g.rr.data = item.data := Except.ok.inj hdata
      have hitemflag : g.rr.offline l = item.offline := (congrArg SlabRdata.offline he).trans (hflag hrrsig)
      have hsame : item = ⟨r.data, true⟩ := by
        rw [hkg.offline_ones hrrsig] at hitemflag
        rw [hkg.data, hkr] at hitemdata
        cases item
        cases hitemdata
        cases hitemflag
        rfl
      rw [← hsame]
      exact htrip.subset hitem
  · rintro ⟨hfits, hrrsig⟩ q heap
    obtain ⟨slab, gs, hslab, hwell, hstores⟩ := @fromrdataset_ok l reservelen rdataset q heap _ hacc (fun _ => True) (fun _ _ _ => trivial)
      (hfits.kept hacc.ne q)
    obtain ⟨items, hitems, hsub⟩ := exists_items hstores (fun k hk => mem_of_kept hacc.ne hk) (fun h => (hrrsig h).2)
    obtain ⟨cs, htrip⟩ := roundTrip_of hacc.ne hwell hstores hitems hsub (fun h => (hrrsig h).1)
    exact ⟨slab, cs, items, hslab, htrip⟩

end Fromrdataset

/-! ### Instances -/

/-- Three TXT records, two of them equal. -/
def threeTexts : List Item := [⟨[2], false⟩, ⟨[1], true⟩, ⟨[2], true⟩]

/-- Three TXT records go through a slab whatever the memory holds. -/
theorem fromrdataset_round_trip_texts : ∃ slab cs items,
    fromrdataset textLayout .mergeSort zeroHeap 0 threeTexts = .ok (slab, slab.length) ∧ RoundTrip textLayout 0 threeTexts slab cs items := by
  have hacc : Accepted textLayout threeTexts := ⟨by decide, by decide, by decide, nofun⟩
  have hfits : Fits textLayout 0 threeTexts := by
    intro c hsub hdistinct
    have hnodup : c.Nodup := hdistinct.imp (fun {r s} hne heq => hne (by rw [heq]; exact Std.ReflCmp.compare_self))
    have hle := storageOf_subperm (l := textLayout) (subperm_of_subset hnodup hsub)
    have htotal : storageOf textLayout threeTexts = 27 := by decide
    omega
  exact (fromrdataset_round_trip hacc).2 ⟨hfits, nofun⟩ .mergeSort zeroHeap

def signedLayout : Layout := ⟨textLayout.ops, true, rrsig⟩

theorem sorted_singleton (l : Layout) (q : Diff.Qsort) (r : Item) : sorted l q [r] = [⟨r, 0, false⟩] := by
  have hperm := q.perm (compareRdata l) [⟨r, 0, false⟩]
  have hsort : q.sort (compareRdata l) [⟨r, 0, false⟩] = [⟨r, 0, false⟩] := perm_singleton.1 hperm
  unfold sorted
  simp only [zipIdx_cons, zipIdx_nil, map_cons, map_nil, hsort]
  rfl

/-- The slab of one RRSIG that is OFFLINE: `rdata_from_slab` does not find the flag. -/
theorem fromrdataset_flag_lost : Accepted signedLayout [⟨[1], true⟩] ∧
    (∀ q, fromrdataset signedLayout q zeroHeap 0 [⟨[1], true⟩] = .ok ([0, 1, 0, 0, 0, 6, 0, 2, 0, 0, 1, 1], 12)) ∧
    current signedLayout [0, 1, 0, 0, 0, 6, 0, 2, 0, 0, 1, 1] ⟨0, 6⟩ = .ok ⟨11, 1, true⟩ ∧
    rdataFromSlab signedLayout [0, 1, 0, 0, 0, 6, 0, 2, 0, 0, 1, 1] 6 = .ok (⟨11, 1, false⟩, 12) ∧
    ¬∀ q heap, ∃ slab cs items, fromrdataset signedLayout q heap 0 [⟨[1], true⟩] = .ok (slab, slab.length) ∧
      RoundTrip signedLayout 0 [⟨[1], true⟩] slab cs items := by
  have hrun : ∀ q, fromrdataset signedLayout q zeroHeap 0 [⟨[1], true⟩] = .ok ([0, 1, 0, 0, 0, 6, 0, 2, 0, 0, 1, 1], 12) := by
    intro q
    unfold fromrdataset
    rw [sorted_singleton]
    rfl
  have hcurrent : current signedLayout [0, 1, 0, 0, 0, 6, 0, 2, 0, 0, 1, 1] ⟨0, 6⟩ = .ok ⟨11, 1, true⟩ := by decide
  have hdecoded : rdataFromSlab signedLayout [0, 1, 0, 0, 0, 6, 0, 2, 0, 0, 1, 1] 6 = .ok (⟨11, 1, false⟩, 12) := by decide
  have hcursors : cursors signedLayout [0, 1, 0, 0, 0, 6, 0, 2, 0, 0, 1, 1] 0 = .ok [⟨0, 6⟩] := by decide
  refine ⟨⟨by decide, by decide, by decide, nofun⟩, hrun, hcurrent, hdecoded, fun h => ?_⟩
  obtain ⟨slab, cs, items, hslab, htrip⟩ := h .mergeSort zeroHeap
  rw [hrun] at hslab
  obtain ⟨rfl, -⟩ := Prod.mk.inj (Except.ok.inj hslab)
  have hcs := htrip.iterated
  rw [hcursors] at hcs
  obtain rfl := Except.ok.inj hcs
  obtain ⟨e, next, h1, h2⟩ := htrip.decoders ⟨0, 6⟩ (mem_singleton_self _)
  rw [hcurrent] at h1
  rw [hdecoded] at h2
  cases h1
  cases h2

end Bind9.RawSlab
