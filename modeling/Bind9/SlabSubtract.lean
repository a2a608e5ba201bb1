import Bind9.SlabUnion

/-! # The subtraction of slabs

`dns_rdataslab_subtract` reads the slab twice, to count what stays and to copy it, and renumbers the load order.  It undoes a merge
with records that are not in the slab. -/

namespace Bind9.RawSlab

open List

/-! ### The two passes -/

section Passes

variable {l : Layout} {mslab sslab : Bytes} {cur sstart : ℕ} {ms ss : List Stored}

/-- The records of `rs` that `ss` has too. -/
def common (l : Layout) (ss rs : List Stored) : ℕ := rs.countP (fun s => Has l ss s.rr.data)

/-- The search among the records to subtract. -/
theorem Run.matches (hs : Run l sslab sstart (ss.map Stored.draft)) (rdata : Bytes) :
    RawSlab.matchLoop l sslab rdata ss.length sstart = .ok (Has l ss rdata) := by
  have hloop := hs.matchLoop rdata
  rw [length_map, any_map] at hloop
  exact hloop

/-- What the first pass finds. -/
theorem Run.countLoop (hs : Run l sslab sstart (ss.map Stored.draft)) (h : Run l mslab cur (ms.map Stored.draft)) :
    countLoop l mslab sslab ss.length sstart ms.length cur =
      .ok (recordsSize l ((without l ss ms).map Stored.rr), (without l ss ms).length, common l ss ms) := by
  induction ms generalizing cur with
  | nil => rfl
  | cons s ms ih =>
    have hhead : At l mslab cur s.draft _ := h.head
    have hcommon : common l ss (s :: ms) = common l ss ms + if Has l ss s.rr.data = true then 1 else 0 := countP_cons
    rw [length_cons, RawSlab.countLoop, hhead.rdataFromSlab, ok_then]
    simp only [hhead.dataOf, ok_then, hs.matches]
    rw [ih h.tail, ok_then, without_cons, hcommon, Nat.add_sub_cancel_left]
    show (if Has l ss s.rr.data = true then _ else _) = _
    cases hhas : Has l ss s.rr.data with
    | true => rfl
    | false => rfl

variable {reserve back : Bytes} {n keys mcount : ℕ} {gs : List Draft} {w : Writer}

theorem Writing.copy_record (hw : Writing l reserve n keys gs back w) {s : Stored} {index : ℕ} (hroom : recordSize l s.rr ≤ back.length)
    (hkey : l.fixed = true → index = s.order ∧ s.order < keys ∧ ∀ x ∈ gs, x.key ≠ s.order) : ∃ offsettable mem,
    RawSlab.noteOffset l w.offsettable index (w.cur - reserve.length) = .ok offsettable ∧ poke w.mem w.cur (bytesOf l s.draft) = .ok mem ∧
      Writing l reserve n keys (gs ++ [s.draft]) (back.drop (recordSize l s.rr)) ⟨mem, w.cur + recordSize l s.rr, offsettable⟩ := by
  obtain ⟨front, hmem, hcur, hnext⟩ := hw.front
  obtain ⟨offsettable, hset, hoff⟩ := @Writing.noteOffset l reserve back n keys gs w hw s.draft index hkey
  have hsize : (bytesOf l s.draft).length = (back.take (recordSize l s.rr)).length := by
    rw [length_bytesOf (l := l) (g := s.draft) rfl, length_take, Nat.min_eq_left hroom]
    rfl
  have hpoke := poke_segment (back.drop (recordSize l s.rr)) hcur hsize
  rw [take_append_drop, ← hmem] at hpoke
  exact ⟨offsettable, _, hset, hpoke, hnext s.draft rfl _ offsettable hoff⟩

/-- What the second pass writes. -/
theorem Run.subtractLoop (hs : Run l sslab sstart (ss.map Stored.draft)) (h : Run l mslab cur (ms.map Stored.draft)) (hmcount : mcount ≤ 0xffff)
    (hw : Writing l reserve n mcount gs back w)
    (hkeys : l.fixed = true → (∀ s ∈ ms, s.order < mcount) ∧ ((gs.map Draft.stored ++ ms).map Stored.order).Nodup)
    (hroom : recordsSize l ((without l ss ms).map Stored.rr) ≤ back.length) : ∃ w',
    subtractLoop l mslab sslab reserve.length mcount ss.length sstart ms.length cur w = .ok w' ∧
      Writing l reserve n mcount (gs ++ (without l ss ms).map Stored.draft) (back.drop (recordsSize l ((without l ss ms).map Stored.rr))) w' := by
  induction ms generalizing cur gs back w with
  | nil =>
    refine ⟨w, rfl, ?_⟩
    rw [show without l ss [] = [] from rfl, map_nil, append_nil]
    exact hw
  | cons s ms ih =>
    obtain ⟨order, r, hread, hslab, hheld⟩ := h.read hmcount (fun hfixed => (hkeys hfixed).1 s mem_cons_self)
    rw [length_cons, RawSlab.subtractLoop, hread, ok_then, hslab]
    simp only [ok_then, hheld.dataOf, hs.matches]
    rw [without_cons] at hroom ⊢
    cases hhas : Has l ss s.rr.data with
    | true =>
      rw [hhas, if_pos rfl] at hroom
      rw [if_pos rfl, if_pos rfl]
      refine ih h.tail hw (fun hfixed => ?_) hroom
      obtain ⟨hlt, hnodup⟩ := hkeys hfixed
      refine ⟨fun x hx => hlt x (mem_cons_of_mem _ hx), ?_⟩
      exact hnodup.sublist (((sublist_cons_self s ms).append_left _).map _)
    | false =>
      have hhead : At l mslab cur s.draft _ := h.head
      rw [hhas, if_neg (by decide), map_cons, recordsSize_cons] at hroom
      rw [if_neg (by decide), if_neg (by decide), map_cons, map_cons, recordsSize_cons, Nat.add_sub_cancel_left]
      have hkey : l.fixed = true → order = s.order ∧ s.order < mcount ∧ ∀ x ∈ gs, x.key ≠ s.order := by
        intro hfixed
        obtain ⟨hlt, hnodup⟩ := hkeys hfixed
        refine ⟨hheld.order hfixed, hlt s mem_cons_self, fun x hx => ?_⟩
        rw [map_append, map_map] at hnodup
        have hmem : x.key ∈ gs.map (Stored.order ∘ Draft.stored) := mem_map_of_mem (f := Stored.order ∘ Draft.stored) hx
        exact (nodup_append.1 hnodup).2.2 x.key hmem s.order (mem_map_of_mem mem_cons_self)
      obtain ⟨offsettable, mem, hset, hpoke, hw1⟩ := hw.copy_record (by omega) hkey
      have hrecord : bytesAt (mslab.drop cur) (recordSize l s.rr) = .ok (bytesOf l s.draft) := by
        rw [hhead.drop]
        exact bytesAt_append (length_bytesOf (l := l) (g := s.draft) rfl).symm
      have hkeys1 : l.fixed = true → (∀ x ∈ ms, x.order < mcount) ∧ (((gs ++ [s.draft]).map Draft.stored ++ ms).map Stored.order).Nodup := by
        intro hfixed
        obtain ⟨hlt, hnodup⟩ := hkeys hfixed
        refine ⟨fun x hx => hlt x (mem_cons_of_mem _ hx), ?_⟩
        simpa [Draft.stored, Stored.draft] using hnodup
      obtain ⟨w', hloop, hw'⟩ := ih h.tail hw1 hkeys1 (by rw [length_drop]; omega)
      refine ⟨w', ?_, ?_⟩
      · rw [hset, ok_then, hrecord, ok_then, hpoke, ok_then]
        exact hloop
      · rw [drop_drop, append_assoc] at hw'
        exact hw'

end Passes

/-! ### The difference -/

section Difference

variable {l : Layout} {reservelen : ℕ} {mslab sslab : Bytes} {ms ss : List Stored}

/-- The records of the slab that a subtraction makes. -/
def difference (l : Layout) (ss ms : List Stored) : List Stored := ranked ((without l ss ms).map Stored.draft)

theorem map_rr_difference (ss ms : List Stored) : (difference l ss ms).map Stored.rr = (without l ss ms).map Stored.rr := by
  unfold difference
  rw [map_rr_ranked, map_rr_draft]

theorem storageSize_sublist {a b : List Record} (h : a.Sublist b) : storageSize l a ≤ storageSize l b :=
  (h.map _).sum_le_sum (fun _ _ => Nat.zero_le _)

theorem length_difference_le (hm : WellFormed l reservelen mslab ms) (ss : List Stored) :
    reservelen + 2 + storageSize l ((without l ss ms).map Stored.rr) < 2 ^ 32 := by
  have hle := storageSize_sublist (l := l) ((without_sublist (l := l) ss ms).map Stored.rr)
  have hlen := hm.length
  have hlt := hm.length_lt
  omega

theorem without_keys (hm : WellFormed l reservelen mslab ms) (ss : List Stored) (hfixed : l.fixed = true) :
    ((without l ss ms).map Stored.order).Nodup := by
  have hnodup : (ms.map Stored.order).Nodup := (hm.orders hfixed).nodup_iff.2 nodup_range
  exact hnodup.sublist ((without_sublist ss ms).map _)

theorem wellFormed_difference (hm : WellFormed l reservelen mslab ms) (hne : without l ss ms ≠ []) :
    WellFormed l reservelen (image l (mslab.take reservelen) (table l (difference l ss ms)).flatten ((difference l ss ms).map Stored.draft))
      (difference l ss ms) := by
  have hreserve := hm.reserve.2
  have hsub := without_sublist (l := l) ss ms
  have hwell := @wellFormed_ranked l (mslab.take reservelen) ((without l ss ms).map Stored.draft) ?_ ?_ ?_ ?_ ?_ ?_
  · rw [hreserve] at hwell
    exact hwell
  · exact fun hnil => hne (map_eq_nil_iff.1 hnil)
  · rw [length_map]
    exact hsub.length_le.trans hm.count_le
  · intro g hg
    obtain ⟨s, hs, rfl⟩ := mem_map.1 hg
    exact hm.body_le s (hsub.subset hs)
  · exact pairwise_map.2 (hm.sorted.sublist hsub)
  · intro hfixed
    rw [map_map]
    exact without_keys hm ss hfixed
  · rw [hreserve, map_rr_draft]
    exact length_difference_le hm ss

theorem loadOrder_difference (hm : WellFormed l reservelen mslab ms) (hfixed : l.fixed = true) :
    loadOrder (difference l ss ms) = (loadOrder ms).filter (fun r => !Has l ss r.data) := by
  have hperm : ((without l ss (inOrder ms)).map Stored.draft).Perm ((without l ss ms).map Stored.draft) :=
    (without_perm (inOrder_perm ms)).map _
  have hrising : ((without l ss (inOrder ms)).map Stored.draft).Pairwise (fun a b => a.key < b.key) :=
    pairwise_map.2 ((hm.inOrder_rising hfixed).sublist (without_sublist ss _))
  have hload := loadOrder_ranked hperm hrising
  rw [map_rr_draft, map_rr_without] at hload
  exact hload

theorem common_comm [Std.TransCmp (l.ops.compare l.type)] (hm : WellFormed l reservelen mslab ms) (hs : WellFormed l reservelen sslab ss) :
    common l ss ms = common l ms ss :=
  @MergeJoin.countP_comm Stored (compareStored l) _ ms ss hm.sorted hs.sorted

theorem common_eq_length : common l ms ss = ss.length ↔ ∀ s ∈ ss, Has l ms s.rr.data = true := countP_eq_length

theorem common_eq_zero : common l ss ms = 0 ↔ ∀ s ∈ ms, Has l ss s.rr.data = false := by
  unfold common
  rw [countP_eq_zero]
  simp only [Bool.not_eq_true]

end Difference

/-! ### `dns_rdataslab_subtract` -/

section Subtract

variable (l : Layout) (reservelen : ℕ) (mslab : Bytes) (ms ss : List Stored)

/-- Some record to subtract is missing. -/
def Missing : Prop := ∃ s ∈ ss, Has l ms s.rr.data = false

/-- Nothing stays. -/
def Emptied : Prop := ∀ s ∈ ms, Has l ss s.rr.data = true

/-- Everything stays. -/
def Untouched : Prop := ∀ s ∈ ms, Has l ss s.rr.data = false

/-- The slab `t` with the records `ts` is the difference. -/
structure IsDifference (t : Bytes) (ts : List Stored) : Prop where
  wellFormed : WellFormed l reservelen t ts
  records : ts.map Stored.rr = (ms.map Stored.rr).filter (fun r => !Has l ss r.data)
  reserve : t.take reservelen = mslab.take reservelen
  size : size l t reservelen = .ok t.length
  loadOrder : l.fixed = true → loadOrder ts = (loadOrder ms).filter (fun r => !Has l ss r.data)

/-- What a subtraction returns, in the order of its checks. -/
structure SubtractsExactly (exact : Bool) (result : Exec Bytes) : Prop where
  notexact : result = stop .notexact ↔ exact = true ∧ Missing l ms ss
  nxrrset : result = stop .nxrrset ↔ ¬(exact = true ∧ Missing l ms ss) ∧ Emptied l ms ss
  unchanged : result = stop .unchanged ↔ ¬(exact = true ∧ Missing l ms ss) ∧ Untouched l ms ss
  difference : ¬(exact = true ∧ Missing l ms ss) → ¬Emptied l ms ss → ¬Untouched l ms ss →
    ∃ t ts, result = .ok t ∧ IsDifference l reservelen mslab ms ss t ts

variable {l reservelen mslab ms ss} {sslab : Bytes}

instance : Decidable (Missing l ms ss) := inferInstanceAs (Decidable (∃ s ∈ ss, Has l ms s.rr.data = false))

instance : Decidable (Emptied l ms ss) := inferInstanceAs (Decidable (∀ s ∈ ms, Has l ss s.rr.data = true))

instance : Decidable (Untouched l ms ss) := inferInstanceAs (Decidable (∀ s ∈ ms, Has l ss s.rr.data = false))

/-- What is written. -/
theorem WellFormed.subtractLoop (heap : Heap) (hm : WellFormed l reservelen mslab ms) (hs : WellFormed l reservelen sslab ss) : ∃ mem₁ mem₂ w,
    poke (heap.get ((reservelen + 2 + storageSize l ((without l ss ms).map Stored.rr)) % 2 ^ 32)) 0 (mslab.take reservelen) = .ok mem₁ ∧
      poke mem₁ reservelen (uint16Bytes (without l ss ms).length) = .ok mem₂ ∧
      RawSlab.subtractLoop l mslab sslab reservelen ms.length ss.length (reservelen + 2 + tableSize l ss.length) ms.length
        (reservelen + 2 + tableSize l ms.length)
        ⟨mem₂, reservelen + 2 + tableSize l (without l ss ms).length, replicate ms.length 0⟩ = .ok w ∧
      fillIn l reservelen w = .ok (image l (mslab.take reservelen) (table l (difference l ss ms)).flatten
        ((difference l ss ms).map Stored.draft)) ∧
      w.cur = (reservelen + 2 + storageSize l ((without l ss ms).map Stored.rr)) % 2 ^ 32 := by
  have hreserve := hm.reserve.2
  have hlt := length_difference_le hm ss
  have hsize : storageSize l ((without l ss ms).map Stored.rr) =
      tableSize l (without l ss ms).length + recordsSize l ((without l ss ms).map Stored.rr) := by rw [storageSize_eq, length_map]
  obtain ⟨mem₁, mem₂, back, h1, h2, hback, hw⟩ := @writing_reserve l (mslab.take reservelen) ms.length
    (heap.get ((reservelen + 2 + storageSize l ((without l ss ms).map Stored.rr)) % 2 ^ 32)) (without l ss ms).length
    (recordsSize l ((without l ss ms).map Stored.rr)) (by rw [heap.length_get, Nat.mod_eq_of_lt hlt, hreserve]; omega)
  obtain ⟨w, hloop, hw'⟩ := hs.run.subtractLoop hm.run hm.count_le hw
    (fun hfixed => ⟨hm.order_lt hfixed, (hm.orders hfixed).nodup_iff.2 nodup_range⟩) hback.ge
  rw [drop_of_length_le hback.le, nil_append] at hw'
  have hcount : (without l ss ms).length = ((without l ss ms).map Stored.draft).length := (length_map _).symm
  have hcur := hw'.cur
  conv at hw' => arg 3; rw [hcount]
  have hfill := hw'.fillIn (fun hfixed => by
    rw [map_map]
    refine ⟨without_keys hm ss hfixed, fun g hg => ?_⟩
    obtain ⟨s, hs, rfl⟩ := mem_map.1 hg
    exact hm.order_lt hfixed s ((without_sublist ss ms).subset hs))
  rw [hreserve] at h2 hloop hfill hcur
  rw [map_rr_draft] at hcur
  refine ⟨mem₁, mem₂, w, h1, h2, hloop, hfill, ?_⟩
  rw [hcur, Nat.mod_eq_of_lt hlt]
  omega

variable [Std.TransCmp (l.ops.compare l.type)]

theorem common_ne_length (hm : WellFormed l reservelen mslab ms) (hs : WellFormed l reservelen sslab ss) :
    common l ss ms ≠ ss.length ↔ Missing l ms ss := by
  rw [common_comm hm hs, Ne, common_eq_length]
  unfold Missing
  simp

theorem subtract_eq (heap : Heap) (hm : WellFormed l reservelen mslab ms) (hs : WellFormed l reservelen sslab ss) (exact : Bool) :
    subtract l heap mslab sslab reservelen exact = if exact = true ∧ Missing l ms ss then stop .notexact
      else if Emptied l ms ss then stop .nxrrset else if Untouched l ms ss then stop .unchanged
      else .ok (image l (mslab.take reservelen) (table l (difference l ss ms)).flatten ((difference l ss ms).map Stored.draft)) := by
  have hcounts : 0 < ms.length ∧ 0 < ss.length := ⟨length_pos_of_ne_nil hm.ne, length_pos_of_ne_nil hs.ne⟩
  have hempty : (without l ss ms).length = 0 ↔ Emptied l ms ss := by
    rw [length_eq_zero_iff, without_eq_nil]
    rfl
  have hsame : common l ss ms = 0 ↔ Untouched l ms ss := common_eq_zero
  have hlength : reservelen + 2 + recordsSize l ((without l ss ms).map Stored.rr) + tableSize l (without l ss ms).length =
      reservelen + 2 + storageSize l ((without l ss ms).map Stored.rr) := by
    rw [storageSize_eq, length_map]
    omega
  obtain ⟨mem₁, mem₂, w, h1, h2, hloop, hfill, hcur⟩ := hm.subtractLoop heap hs
  unfold subtract
  simp only [hm.count, hs.count, ok_then, require_true (decide_eq_true hcounts), hs.run.countLoop hm.run, hlength, hm.reserve.1, h1, h2,
    hloop, hfill, hcur, common_ne_length hm hs, hempty, hsame]
  rfl

theorem subtract_exactly (heap : Heap) (hm : WellFormed l reservelen mslab ms) (hs : WellFormed l reservelen sslab ss) (exact : Bool) :
    SubtractsExactly l reservelen mslab ms ss exact (subtract l heap mslab sslab reservelen exact) := by
  have hexclusive : Emptied l ms ss → ¬Untouched l ms ss := by
    intro hempty hsame
    obtain ⟨s, t, rfl⟩ := exists_cons_of_ne_nil hm.ne
    have h1 := hempty s mem_cons_self
    rw [hsame s mem_cons_self] at h1
    cases h1
  rw [subtract_eq heap hm hs]
  refine ⟨⟨fun h => ?_, fun h => if_pos h⟩, ⟨fun h => ?_, fun h => ?_⟩, ⟨fun h => ?_, fun h => ?_⟩, fun hexact hempty hsame => ?_⟩
  · split_ifs at h with h1
    · exact h1
    · cases h
    · cases h
    · cases h
  · split_ifs at h with h1 h2
    · cases h
    · exact ⟨h1, h2⟩
    · cases h
    · cases h
  · rw [if_neg h.1, if_pos h.2]
  · split_ifs at h with h1 h2 h3
    · cases h
    · cases h
    · exact ⟨h1, h3⟩
    · cases h
  · rw [if_neg h.1, if_neg (fun hempty => hexclusive hempty h.2), if_pos h.2]
  · rw [if_neg hexact, if_neg hempty, if_neg hsame]
    have hne : without l ss ms ≠ [] := fun hnil => hempty (without_eq_nil.1 hnil)
    have hwell := wellFormed_difference hm hne
    refine ⟨_, _, rfl, hwell, ?_, take_left' hm.reserve.2, hwell.size, loadOrder_difference hm⟩
    rw [map_rr_difference, map_rr_without]

end Subtract

/-! ### A subtraction undoes a merge -/

section Inverse

variable {l : Layout} {reservelen : ℕ} {slab1 slab2 oslab nslab : Bytes} {os ns : List Stored}

theorem Run.equalLoop {cur1 cur2 : ℕ} {gs hs : List Draft} (h1 : Run l slab1 cur1 gs) (h2 : Run l slab2 cur2 hs)
    (hrr : gs.map Draft.rr = hs.map Draft.rr) : RawSlab.equalLoop l slab1 slab2 gs.length cur1 cur2 = .ok true := by
  induction gs generalizing cur1 cur2 hs with
  | nil => rfl
  | cons g gs ih =>
    cases hs with
    | nil => cases hrr
    | cons h hs =>
      obtain ⟨hhead, htail⟩ := cons.inj hrr
      have hmemcmp : memcmp (slab1.drop (cur1 + headerSize l)) (slab2.drop (cur2 + headerSize l)) (g.rr.body l).length = .ok .eq := by
        unfold memcmp
        have hself : compare (g.rr.body l) (g.rr.body l) = .eq := Std.ReflCmp.compare_self
        rw [h1.head.body, h2.head.body, ← hhead, bytesAt_append rfl, ok_then, bytesAt_append rfl, ok_then, hself]
        rfl
      rw [length_cons, RawSlab.equalLoop, h1.head.length, ok_then, h2.head.length, ok_then, ← hhead]
      simp only [hmemcmp, ok_then, ne_eq, not_true_eq_false, if_false]
      have htail2 := h2.tail
      rw [← hhead] at htail2
      have hsize : recordSize l g.rr = headerSize l + (g.rr.body l).length := rfl
      rw [Nat.add_assoc, Nat.add_assoc, ← hsize]
      exact ih h1.tail htail2 htail

theorem WellFormed.equal {rs ts : List Stored} (h1 : WellFormed l reservelen slab1 rs) (h2 : WellFormed l reservelen slab2 ts)
    (hrr : rs.map Stored.rr = ts.map Stored.rr) : equal l slab1 slab2 reservelen = .ok true := by
  have hlength : rs.length = ts.length := by simpa using congrArg List.length hrr
  have hrun2 := h2.run
  rw [← hlength] at hrun2
  have hloop := h1.run.equalLoop hrun2 (by rw [map_rr_draft, map_rr_draft, hrr])
  rw [length_map] at hloop
  unfold RawSlab.equal
  rw [h1.count, ok_then, h2.count, ok_then, ← hlength, if_neg (by simp)]
  exact hloop

variable [Std.TransCmp (l.ops.compare l.type)]

theorem merge_ok (heap : Heap) (hold : WellFormed l reservelen oslab os) (hnew : WellFormed l reservelen nslab ns) {exact force : Bool}
    {t : Bytes} (h : merge l heap oslab nslab reservelen exact force = .ok t) : WellFormed l reservelen t (merged l os ns) := by
  rw [merge_eq heap hold hnew] at h
  split_ifs at h with h1 h2 h3
  · cases h
  · cases h
  · cases h
  · have hlt : unionLength l reservelen os ns < 2 ^ 32 := by
      by_contra hge
      exact writeMerged_overrun heap hold hnew rfl (Nat.not_lt.1 hge) h
    have hwrite := writeMerged_ok heap hold hnew rfl hlt
    have ht := Except.ok.inj (h.symm.trans hwrite)
    rw [ht]
    exact wellFormed_merged hold hnew (Nat.not_lt.1 h3) hlt

theorem without_unionOf (hold : WellFormed l reservelen oslab os) (hnew : WellFormed l reservelen nslab ns)
    (hdisjoint : ∀ s ∈ ns, Has l os s.rr.data = false) : without l ns (unionOf l os ns) = os := by
  have hold' : without l ns os = os := by
    have hzero : common l os ns = 0 := common_eq_zero.2 hdisjoint
    rw [← common_comm hold hnew] at hzero
    apply filter_eq_self.2
    intro s hs
    rw [common_eq_zero.1 hzero s hs]
    rfl
  have hnew' : without l ns (shifted os.length (without l os ns)) = [] := by
    apply filter_eq_nil_iff.2
    intro e he
    obtain ⟨x, hx, rfl⟩ := mem_map.1 he
    have hself : Has l ns x.rr.data = true :=
      any_eq_true.2 ⟨x, (without_sublist os ns).subset hx, beq_iff_eq.2 Std.ReflCmp.compare_self⟩
    rw [hself]
    decide
  have hperm : (without l ns (unionOf l os ns)).Perm os := by
    have hfilter := @without_perm l ns _ _ (unionOf_perm (l := l) os ns)
    have happend : without l ns (os ++ shifted os.length (without l os ns)) = os := by
      have hsplit : without l ns (os ++ shifted os.length (without l os ns)) =
          without l ns os ++ without l ns (shifted os.length (without l os ns)) := filter_append _ _
      rw [hsplit, hold', hnew', append_nil]
    rw [happend] at hfilter
    exact hfilter
  -- both lists are strictly sorted
  have hsorted := (unionOf_sorted hold hnew).sublist (without_sublist (l := l) ns (unionOf l os ns))
  refine Perm.eq_of_pairwise (fun a b _ _ hab hba => ?_) hsorted hold.sorted hperm
  have hgt : compareStored l b a = .gt := Std.OrientedCmp.gt_iff_lt.2 hab
  rw [show compareStored l b a = .lt from hba] at hgt
  cases hgt

/-- The union minus the new records is the old slab. -/
theorem subtract_merge (heap heap' : Heap) (hold : WellFormed l reservelen oslab os) (hnew : WellFormed l reservelen nslab ns)
    (hdisjoint : ∀ s ∈ ns, Has l os s.rr.data = false) {exact force exact' : Bool} {t : Bytes}
    (h : merge l heap oslab nslab reservelen exact force = .ok t) : ∃ u, subtract l heap' t nslab reservelen exact' = .ok u ∧
      equal l u oslab reservelen = .ok true ∧ size l t reservelen = .ok t.length ∧ size l u reservelen = .ok u.length := by
  have hmerged := merge_ok heap hold hnew h
  have hrest : (without l ns (merged l os ns)).map Stored.rr = os.map Stored.rr := by
    rw [map_rr_without, map_rr_merged, ← map_rr_without, without_unionOf hold hnew hdisjoint]
  have hhas : ∀ s ∈ ns, Has l (merged l os ns) s.rr.data = true := by
    intro s hs
    have hmem : s.rr ∈ (merged l os ns).map Stored.rr := by
      rw [map_rr_merged, (map_rr_unionOf os ns).mem_iff, map_rr_without]
      apply mem_append_right
      apply mem_filter.2
      exact ⟨mem_map_of_mem hs, by rw [hdisjoint s hs]; rfl⟩
    obtain ⟨x, hx, hrr⟩ := mem_map.1 hmem
    refine any_eq_true.2 ⟨x, hx, beq_iff_eq.2 ?_⟩
    rw [hrr]
    exact Std.ReflCmp.compare_self
  have hne : without l ns (merged l os ns) ≠ [] := by
    intro hnil
    rw [hnil] at hrest
    exact hold.ne (map_eq_nil_iff.1 hrest.symm)
  have hmissing : ¬(exact' = true ∧ Missing l (merged l os ns) ns) := by
    rintro ⟨-, s, hs, hno⟩
    rw [hhas s hs] at hno
    cases hno
  have hempty : ¬Emptied l (merged l os ns) ns := fun hall => hne (without_eq_nil.2 hall)
  have huntouched : ¬Untouched l (merged l os ns) ns := by
    intro hall
    have hzero := common_eq_zero.2 hall
    rw [common_comm hmerged hnew, common_eq_zero] at hzero
    obtain ⟨s, u, rfl⟩ := exists_cons_of_ne_nil hnew.ne
    have hno := hzero s mem_cons_self
    rw [hhas s mem_cons_self] at hno
    cases hno
  have hwell := wellFormed_difference hmerged hne
  refine ⟨_, ?_, hwell.equal hold ?_, hmerged.size, hwell.size⟩
  · rw [subtract_eq heap' hmerged hnew, if_neg hmissing, if_neg hempty, if_neg huntouched]
  · rw [map_rr_difference]
    exact hrest

/-- `dns_rdataslab_subtract` is the exact difference, in the order of its checks, and undoes a merge with new records. -/
theorem subtract_difference (l : Layout) [Std.TransCmp (l.ops.compare l.type)] (reservelen : ℕ) :
    (∀ heap mslab sslab ms ss exact, WellFormed l reservelen mslab ms → WellFormed l reservelen sslab ss →
      SubtractsExactly l reservelen mslab ms ss exact (subtract l heap mslab sslab reservelen exact)) ∧
    ∀ heap heap' oslab nslab os ns exact force exact' t, WellFormed l reservelen oslab os → WellFormed l reservelen nslab ns →
      (∀ s ∈ ns, Has l os s.rr.data = false) → merge l heap oslab nslab reservelen exact force = .ok t →
      ∃ u, subtract l heap' t nslab reservelen exact' = .ok u ∧ equal l u oslab reservelen = .ok true ∧
        size l t reservelen = .ok t.length ∧ size l u reservelen = .ok u.length :=
  ⟨fun heap _ _ _ _ exact hm hs => subtract_exactly heap hm hs exact,
    fun heap heap' _ _ _ _ _ _ _ _ hold hnew hdisjoint h => subtract_merge heap heap' hold hnew hdisjoint h⟩

/-- `[2]` alone. -/
def otherText : List Stored := [⟨0, ⟨0, [2]⟩⟩]

theorem wellFormed_otherText : WellFormed textLayout 0 (textSlab otherText) otherText :=
  ⟨by decide, by decide, by decide, by decide, fun _ => by decide, ⟨[], rfl, rfl⟩, by decide⟩

/-- `[2]` is added to `[1]` and taken away again. -/
theorem subtract_difference_texts : SubtractsExactly textLayout 0 (textSlab twoTexts) twoTexts oneText false
      (subtract textLayout zeroHeap (textSlab twoTexts) (textSlab oneText) 0 false) ∧
    ∃ u, subtract textLayout zeroHeap (textSlab twoTexts) (textSlab otherText) 0 true = .ok u ∧
      equal textLayout u (textSlab oneText) 0 = .ok true ∧ size textLayout (textSlab twoTexts) 0 = .ok (textSlab twoTexts).length ∧
      size textLayout u 0 = .ok u.length := by
  obtain ⟨h1, h2⟩ := subtract_difference textLayout 0
  exact ⟨h1 zeroHeap _ _ _ _ false wellFormed_twoTexts wellFormed_oneText,
    h2 zeroHeap zeroHeap _ _ _ _ true false true _ wellFormed_oneText wellFormed_otherText (by decide) (by decide)⟩

/-- With EXACT a missing record is found first: `[1]` without `[1]`, `[2]` is not refused because nothing stays. -/
theorem subtract_missing_first : WellFormed textLayout 0 (textSlab oneText) oneText ∧ WellFormed textLayout 0 (textSlab twoTexts) twoTexts ∧
    Emptied textLayout oneText twoTexts ∧
    subtract textLayout zeroHeap (textSlab oneText) (textSlab twoTexts) 0 true = stop .notexact ∧
    ¬(subtract textLayout zeroHeap (textSlab oneText) (textSlab twoTexts) 0 true = stop .nxrrset ↔ Emptied textLayout oneText twoTexts) := by
  have hempty : Emptied textLayout oneText twoTexts := by decide
  have hresult : subtract textLayout zeroHeap (textSlab oneText) (textSlab twoTexts) 0 true = stop .notexact := by decide
  refine ⟨wellFormed_oneText, wellFormed_twoTexts, hempty, hresult, fun h => ?_⟩
  have hnxrrset := h.2 hempty
  rw [hresult] at hnxrrset
  cases hnxrrset

end Inverse

/-! ### The lists that stand for slabs -/

section Lists

variable {l : Layout} {reservelen : ℕ}

/-- The bytes are a slab whose rdata are the list. -/
def Represents (l : Layout) (reservelen : ℕ) (t : Bytes) (s : Slab) : Prop :=
  ∃ ts, WellFormed l reservelen t ts ∧ ts.map (fun s => s.rr.data) = s.1

def WellFormed.slab {t : Bytes} {ts : List Stored} (h : WellFormed l reservelen t ts) : Slab :=
  ⟨ts.map (fun s => s.rr.data), fun hnil => h.ne (map_eq_nil_iff.1 hnil)⟩

/-- The function of the bytes does what the function of the lists does. -/
def Agrees (l : Layout) (reservelen : ℕ) : Except Result Slab → Exec Bytes → Prop
  | .error r, y => y = stop r
  | .ok s, y => ∃ t, y = .ok t ∧ Represents l reservelen t s

theorem map_data (rs : List Stored) : rs.map (fun s => s.rr.data) = (rs.map Stored.rr).map Record.data := (map_map ..).symm

theorem mergeLoop_map : ∀ os ns : List Stored,
    Slab.mergeLoop l.ops l.type (os.map (fun s => s.rr.data)) (ns.map (fun s => s.rr.data)) = (union l os ns).map (fun s => s.rr.data)
  | os, [] => by simp [Slab.mergeLoop, union]
  | [], n :: ns => by simp [Slab.mergeLoop, union]
  | o :: os, n :: ns => by
    have hold := mergeLoop_map os (n :: ns)
    have hnew := mergeLoop_map (o :: os) ns
    have hunion : union l (o :: os) (n :: ns) =
        if compareStored l o n == .lt then o :: union l os (n :: ns) else n :: union l (o :: os) ns := cons_merge_cons ..
    rw [map_cons] at hold hnew
    rw [map_cons, map_cons, Slab.mergeLoop, hold, hnew, hunion]
    simp only [compareStored, beq_iff_eq]
    split
    · rfl
    · rfl
termination_by os ns => os.length + ns.length

variable [Std.TransCmp (l.ops.compare l.type)] {oslab nslab mslab sslab : Bytes} {os ns ms ss : List Stored}

theorem rdataInSlab_map (rdata : Rdata) : ∀ {os : List Stored},
    os.Pairwise (fun a b => l.ops.compare l.type a.rr.data b.rr.data = .lt) →
    Slab.rdataInSlab l.ops l.type rdata (os.map (fun s => s.rr.data)) = Has l os rdata
  | [], _ => rfl
  | s :: os, h => by
    obtain ⟨hs, hrest⟩ := pairwise_cons.1 h
    have ih := rdataInSlab_map rdata hrest
    have hswap : l.ops.compare l.type rdata s.rr.data = (l.ops.compare l.type s.rr.data rdata).swap := Std.OrientedCmp.eq_swap
    rw [map_cons, Slab.rdataInSlab, Has, any_cons, Matches, hswap]
    cases hc : l.ops.compare l.type s.rr.data rdata with
    | eq => rfl
    | lt => exact ih
    | gt =>
      symm
      rw [show (Ordering.gt.swap == Ordering.eq) = false from rfl, Bool.false_or, any_eq_false]
      intro x hx hmatch
      have heq : l.ops.compare l.type rdata x.rr.data = .eq := beq_iff_eq.1 hmatch
      have hlt : l.ops.compare l.type s.rr.data rdata = .lt :=
        (Std.TransCmp.congr_right heq).trans (hs x hx)
      rw [hc] at hlt
      cases hlt

/-- **`dns_rdataslab_merge`** in memory does what it does to lists, where the length of the union fits 32 bits. -/
theorem merge_agrees (heap : Heap) (hold : WellFormed l reservelen oslab os) (hnew : WellFormed l reservelen nslab ns)
    (exact force : Bool) (hlt : unionLength l reservelen os ns < 2 ^ 32) :
    Agrees l reservelen (Slab.merge l.ops l.type true hold.slab hnew.slab exact force)
      (merge l heap oslab nslab reservelen exact force) := by
  have hadded : Slab.added l.ops l.type hold.slab hnew.slab = (without l os ns).map (fun s => s.rr.data) := by
    unfold Slab.added without
    rw [WellFormed.slab, WellFormed.slab, filter_map]
    congr 1
    exact filter_congr (fun s _ => congrArg not (rdataInSlab_map s.rr.data hold.sorted))
  have hcount : hold.slab.1.length + ((without l os ns).map (fun s => s.rr.data)).length = unionCount l os ns := by
    rw [WellFormed.slab, length_map, length_map]
    rfl
  rw [merge_eq heap hold hnew]
  unfold Slab.merge
  simp only [hadded, hcount, map_eq_nil_iff, without_eq_nil]
  rw [if_neg (fun h => h.2 (hcount.symm.trans (Nat.add_comm _ _)))]
  by_cases hsome : NothingNew l os ns ∧ force = false
  · rw [if_pos hsome, if_pos hsome]
    rfl
  rw [if_neg hsome, if_neg hsome]
  by_cases hsingle : 1 < unionCount l os ns ∧ l.ops.issingleton l.type = true
  · rw [if_pos hsingle, if_pos hsingle]
    rfl
  rw [if_neg hsingle, if_neg hsingle]
  by_cases hspace : 0xffff < unionCount l os ns
  · rw [if_pos hspace, if_pos hspace]
    rfl
  rw [if_neg hspace, if_neg hspace, if_neg Bool.noConfusion]
  refine ⟨_, writeMerged_ok heap hold hnew rfl hlt, _, wellFormed_merged hold hnew (not_lt.1 hspace) hlt, ?_⟩
  have hloop := mergeLoop_map (l := l) os (shifted os.length (without l os ns))
  rw [map_data (shifted _ _), map_rr_shifted, ← map_data] at hloop
  rw [map_data, map_rr_merged, ← map_data]
  exact hloop.symm

/-- **`dns_rdataslab_subtract`** in memory does what it does to lists. -/
theorem subtract_agrees (heap : Heap) (hm : WellFormed l reservelen mslab ms) (hs : WellFormed l reservelen sslab ss) (exact : Bool) :
    Agrees l reservelen (Slab.subtract l.ops l.type true hm.slab hs.slab exact) (subtract l heap mslab sslab reservelen exact) := by
  have hkept : Slab.kept l.ops l.type hm.slab hs.slab = (without l ss ms).map (fun s => s.rr.data) := by
    unfold Slab.kept without
    rw [WellFormed.slab, WellFormed.slab, filter_map]
    congr 1
    exact filter_congr (fun s _ => congrArg not any_map)
  have hcount : hm.slab.1.length - ((without l ss ms).map (fun s => s.rr.data)).length = common l ss ms := by
    rw [WellFormed.slab, length_map, length_map, without, ← countP_eq_length_filter, common,
      length_eq_countP_add_countP (fun s => Has l ss s.rr.data)]
    simp
  have hlength : hs.slab.1.length = ss.length := length_map _
  have hempties : without l ss ms = [] ↔ Emptied l ms ss := without_eq_nil
  have hkeeps : common l ss ms = 0 ↔ Untouched l ms ss := common_eq_zero
  rw [subtract_eq heap hm hs]
  unfold Slab.subtract
  simp only [hkept, hcount, hlength, common_ne_length hm hs, map_eq_nil_iff, hempties, hkeeps]
  by_cases hexact : exact = true ∧ Missing l ms ss
  · rw [if_pos hexact, if_pos hexact]
    rfl
  rw [if_neg hexact, if_neg hexact]
  by_cases hempty : Emptied l ms ss
  · rw [dif_pos hempty, if_pos hempty]
    rfl
  rw [dif_neg hempty, if_neg hempty]
  by_cases hsame : Untouched l ms ss
  · rw [if_pos hsame, if_pos hsame]
    rfl
  rw [if_neg hsame, if_neg hsame, if_neg Bool.noConfusion]
  have hne : without l ss ms ≠ [] := fun hnil => hempty (without_eq_nil.1 hnil)
  refine ⟨_, rfl, _, wellFormed_difference hm hne, ?_⟩
  rw [map_data, map_rr_difference, ← map_data]

end Lists

end Bind9.RawSlab
