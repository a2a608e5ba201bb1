import Bind9.SlabDedup
import Bind9.SlabUnion

/-! # From an rdataset to a slab and back

`dns_rdataslab_fromrdataset` and the functions that iterate over the slab.  The flag OFFLINE of an RRSIG is or-ed into whatever the
memory holds, and `rdata_from_slab` looks for it in another place than `rdataset_current`. -/

namespace Bind9.RawSlab

open List

/-! ### The records are stored -/

section Storing

variable {l : Layout}

/-- The meta data of an rdata. -/
def flagOf (r : Item) : UInt8 := if r.offline then OFFLINE else 0

theorem storeBody {a b c : Bytes} {r : Item} (hlen : b.length = r.data.length + metaSize l) : ∃ mark,
    (l.type = rrsig → ∃ fresh ∈ b, mark = fresh ||| flagOf r) ∧
      (storeMeta l (a ++ (b ++ c)) a.length r.offline >>= fun mem => poke mem (a.length + metaSize l) r.data) =
        .ok (a ++ (Record.body l ⟨mark, r.data⟩ ++ c)) := by
  unfold storeMeta Record.body
  by_cases hrrsig : l.type = rrsig
  · have hmeta : metaSize l = 1 := if_pos hrrsig
    rw [hmeta] at hlen ⊢
    obtain ⟨fresh, b', rfl⟩ := exists_cons_of_length_eq_add_one hlen
    have hbyte : byteAt (a ++ (fresh :: b' ++ c)) a.length = .ok fresh := by
      unfold byteAt
      simp
    have hpoke1 : poke (a ++ (fresh :: b' ++ c)) a.length [fresh ||| flagOf r] = .ok (a ++ ([fresh ||| flagOf r] ++ (b' ++ c))) :=
      @poke_segment a [fresh] [fresh ||| flagOf r] a.length (b' ++ c) rfl rfl
    have hpoke2 : poke (a ++ ([fresh ||| flagOf r] ++ (b' ++ c))) (a.length + 1) r.data =
        .ok (a ++ ((fresh ||| flagOf r) :: r.data ++ c)) := by
      have hsegment := @poke_segment (a ++ [fresh ||| flagOf r]) b' r.data (a.length + 1) c (by simp) (by simpa using hlen.symm)
      simp only [append_assoc] at hsegment
      exact hsegment
    refine ⟨fresh ||| flagOf r, fun _ => ⟨fresh, mem_cons_self, rfl⟩, ?_⟩
    rw [if_pos hrrsig, if_pos hrrsig, hbyte, ok_then]
    show (poke _ _ [fresh ||| flagOf r] >>= _) = _
    rw [hpoke1, ok_then, hpoke2]
  have hmeta : metaSize l = 0 := if_neg hrrsig
  rw [hmeta] at hlen ⊢
  refine ⟨0, fun h => absurd h hrrsig, ?_⟩
  rw [if_neg hrrsig, if_neg hrrsig, ok_then]
  exact poke_segment c (Nat.add_zero _) hlen.symm

/-- The number of bytes of a record. -/
def sizeOfRdata (l : Layout) (r : Item) : ℕ := headerSize l + (r.data.length + metaSize l)

theorem recordSize_eq (mark : UInt8) (r : Item) : recordSize l ⟨mark, r.data⟩ = sizeOfRdata l r := by
  unfold recordSize sizeOfRdata
  rw [length_body]

variable {reserve back : Bytes} {n keys : ℕ} {gs : List Draft} {w : Writer}

theorem storeRdata_ok (hw : Writing l reserve n keys gs back w) {x : Xrdata} (hremoved : x.removed = false)
    (hlen : x.rdata.data.length + metaSize l ≤ 0xffff) (hroom : sizeOfRdata l x.rdata ≤ back.length)
    (hkey : l.fixed = true → x.order < keys ∧ ∀ g ∈ gs, g.key ≠ x.order) : ∃ w' ord mark,
    storeRdata l reserve.length w x = .ok w' ∧ (l.type = rrsig → ∃ fresh ∈ back, mark = fresh ||| flagOf x.rdata) ∧
      Writing l reserve n keys (gs ++ [⟨x.order, ord, ⟨mark, x.rdata.data⟩⟩]) (back.drop (sizeOfRdata l x.rdata)) w' := by
  obtain ⟨front, hmem, hcur, hnext⟩ := hw.front
  obtain ⟨b1, b2, b3, hback, hb1, hb2, hb3⟩ := @exists_pieces l back ⟨0, x.rdata.data⟩ (by rw [recordSize_eq]; exact hroom)
  rw [length_body] at hb3
  rw [recordSize_eq] at hback
  obtain ⟨mark, hmark, hbody⟩ := @storeBody l (front ++ (uint16Bytes (x.rdata.data.length + metaSize l) ++ b2)) b3
    (back.drop (sizeOfRdata l x.rdata)) x.rdata hb3
  obtain ⟨offsettable, hset, hoff⟩ := @Writing.noteOffset l reserve back n keys gs w hw ⟨x.order, leftOrd l b2, ⟨mark, x.rdata.data⟩⟩ x.order
    (fun hfixed => ⟨rfl, hkey hfixed⟩)
  have htwo := two_le_headerSize (l := l)
  have hbase : (front ++ (uint16Bytes (x.rdata.data.length + metaSize l) ++ b2)).length = w.cur + headerSize l := by
    rw [length_append, length_append, length_uint16Bytes, hcur, hb2]
    omega
  have hpoke : poke w.mem w.cur (uint16Bytes (x.rdata.data.length + metaSize l)) =
      .ok (front ++ (uint16Bytes (x.rdata.data.length + metaSize l) ++ b2) ++ (b3 ++ back.drop (sizeOfRdata l x.rdata))) := by
    have hsegment := @poke_segment front b1 (uint16Bytes (x.rdata.data.length + metaSize l)) w.cur
      (b2 ++ (b3 ++ back.drop (sizeOfRdata l x.rdata))) hcur (by rw [length_uint16Bytes, hb1])
    rw [hmem]
    conv_lhs => rw [hback]
    rw [hsegment]
    simp only [append_assoc]
  have hbytes : front ++ (uint16Bytes (x.rdata.data.length + metaSize l) ++ b2) ++
      (Record.body l ⟨mark, x.rdata.data⟩ ++ back.drop (sizeOfRdata l x.rdata)) =
      front ++ (bytesOf l ⟨x.order, leftOrd l b2, ⟨mark, x.rdata.data⟩⟩ ++ back.drop (sizeOfRdata l x.rdata)) := by
    rw [bytesOf_leftOrd hb2, length_body]
    simp only [append_assoc]
  have hwriting := hnext ⟨x.order, leftOrd l b2, ⟨mark, x.rdata.data⟩⟩ (length_leftOrd hb2) (back.drop (sizeOfRdata l x.rdata)) offsettable hoff
  rw [recordSize_eq, ← hbytes] at hwriting
  refine ⟨_, leftOrd l b2, mark, ?_, fun hrrsig => ?_, hwriting⟩
  · rw [hbase] at hbody
    unfold storeRdata
    rw [if_neg (by rw [hremoved]; decide), hset]
    simp only [ok_then, require_true (decide_eq_true hlen), hpoke]
    cases hmeta : storeMeta l (front ++ (uint16Bytes (x.rdata.data.length + metaSize l) ++ b2) ++
        (b3 ++ back.drop (sizeOfRdata l x.rdata))) (w.cur + headerSize l) x.rdata.offline with
    | error e =>
      rw [hmeta] at hbody
      cases hbody
    | ok mem =>
      rw [hmeta, ok_then] at hbody
      simp only [ok_then, hbody]
      unfold sizeOfRdata
      congr 2
      omega
  · obtain ⟨fresh, hfresh, heq⟩ := hmark hrrsig
    refine ⟨fresh, ?_, heq⟩
    rw [hback]
    simp [hfresh]

/-- The draft of an entry; the memory held bytes with the property `P`. -/
structure Stores (l : Layout) (P : UInt8 → Prop) (k : Xrdata) (g : Draft) : Prop where
  key : g.key = k.order
  data : g.rr.data = k.rdata.data
  mark : l.type = rrsig → ∃ fresh, P fresh ∧ g.rr.mark = fresh ||| flagOf k.rdata

variable {ks : List Xrdata}

theorem stores_map {β : Type} {P : UInt8 → Prop} {f : Xrdata → β} {f' : Draft → β} {gs : List Draft}
    (h : Forall₂ (Stores l P) ks gs) (heq : ∀ k g, Stores l P k g → f' g = f k) : gs.map f' = ks.map f := by
  induction h with
  | nil => rfl
  | cons hkg _ ih => rw [map_cons, map_cons, ih, heq _ _ hkg]

/-- The number of bytes of some entries. -/
def sizeOfEntries (l : Layout) (ks : List Xrdata) : ℕ := (ks.map (fun k => sizeOfRdata l k.rdata)).sum

theorem sizeOfEntries_cons (k : Xrdata) (ks : List Xrdata) : sizeOfEntries l (k :: ks) = sizeOfRdata l k.rdata + sizeOfEntries l ks := rfl

/-- Removed entries are skipped. -/
theorem storeAll_filter (offsetbase : ℕ) (xs : List Xrdata) (w : Writer) :
    xs.foldlM (storeRdata l offsetbase) w = (xs.filter (fun x => !x.removed)).foldlM (storeRdata l offsetbase) w := by
  induction xs generalizing w with
  | nil => rfl
  | cons x xs ih =>
    rw [filter_cons]
    cases hremoved : x.removed with
    | true =>
      have hskip : storeRdata l offsetbase w x = .ok w := by
        unfold storeRdata
        rw [if_pos hremoved]
        rfl
      rw [foldlM_cons, hskip, ok_then]
      exact ih w
    | false =>
      show _ = (x :: xs.filter (fun x => !x.removed)).foldlM (storeRdata l offsetbase) w
      rw [foldlM_cons, foldlM_cons]
      cases storeRdata l offsetbase w x with
      | error e => rfl
      | ok w' => exact ih w'

theorem storeAll_ok {P : UInt8 → Prop} (hremoved : ∀ k ∈ ks, k.removed = false)
    (hlen : ∀ k ∈ ks, k.rdata.data.length + metaSize l ≤ 0xffff) (hw : Writing l reserve n keys gs back w) (hP : ∀ b ∈ back, P b)
    (hkeys : l.fixed = true → (∀ k ∈ ks, k.order < keys) ∧ (gs.map Draft.key ++ ks.map Xrdata.order).Nodup)
    (hroom : sizeOfEntries l ks ≤ back.length) : ∃ w' hs, ks.foldlM (storeRdata l reserve.length) w = .ok w' ∧
      Writing l reserve n keys (gs ++ hs) (back.drop (sizeOfEntries l ks)) w' ∧ Forall₂ (Stores l P) ks hs := by
  induction ks generalizing gs back w with
  | nil => exact ⟨w, [], rfl, by rw [append_nil]; exact hw, .nil⟩
  | cons k ks ih =>
    rw [sizeOfEntries_cons] at hroom
    have hkey : l.fixed = true → k.order < keys ∧ ∀ g ∈ gs, g.key ≠ k.order := by
      intro hfixed
      obtain ⟨hlt, hnodup⟩ := hkeys hfixed
      refine ⟨hlt k mem_cons_self, fun g hg => ?_⟩
      exact (nodup_append.1 hnodup).2.2 g.key (mem_map_of_mem hg) k.order (mem_map_of_mem mem_cons_self)
    obtain ⟨w₁, ord, mark, hstore, hmark, hw1⟩ := storeRdata_ok hw (hremoved k mem_cons_self) (hlen k mem_cons_self) (by omega) hkey
    have hkeys1 : l.fixed = true → (∀ k ∈ ks, k.order < keys) ∧
        ((gs ++ [(⟨k.order, ord, ⟨mark, k.rdata.data⟩⟩ : Draft)]).map Draft.key ++ ks.map Xrdata.order).Nodup := by
      intro hfixed
      obtain ⟨hlt, hnodup⟩ := hkeys hfixed
      refine ⟨fun x hx => hlt x (mem_cons_of_mem _ hx), ?_⟩
      simpa using hnodup
    obtain ⟨w', hs, hall, hw', hstores⟩ := ih (fun x hx => hremoved x (mem_cons_of_mem _ hx))
      (fun x hx => hlen x (mem_cons_of_mem _ hx)) hw1 (fun b hb => hP b (mem_of_mem_drop hb)) hkeys1
      (by rw [length_drop]; omega)
    refine ⟨w', ⟨k.order, ord, ⟨mark, k.rdata.data⟩⟩ :: hs, ?_, ?_, .cons ⟨rfl, rfl, fun hrrsig => ?_⟩ hstores⟩
    · rw [foldlM_cons, hstore, ok_then]
      exact hall
    · rw [append_assoc, drop_drop] at hw'
      exact hw'
    · obtain ⟨fresh, hfresh, heq⟩ := hmark hrrsig
      exact ⟨fresh, hP fresh hfresh, heq⟩

variable {offsetbase : ℕ}

/-- Where the last byte is written. -/
theorem storeAll_cur (hremoved : ∀ k ∈ ks, k.removed = false) {w w' : Writer}
    (h : ks.foldlM (storeRdata l offsetbase) w = .ok w') : w'.cur = w.cur + sizeOfEntries l ks ∧ w'.mem.length = w.mem.length := by
  induction ks generalizing w with
  | nil =>
    cases h
    exact ⟨rfl, rfl⟩
  | cons k ks ih =>
    rw [foldlM_cons] at h
    obtain ⟨w₁, hstore, hrest⟩ := bind_eq_ok h
    obtain ⟨hcur, hmem⟩ := ih (fun x hx => hremoved x (mem_cons_of_mem _ hx)) hrest
    unfold storeRdata at hstore
    rw [if_neg (by rw [hremoved k mem_cons_self]; decide)] at hstore
    obtain ⟨offsettable, -, hstore⟩ := bind_eq_ok hstore
    obtain ⟨-, -, hstore⟩ := bind_eq_ok hstore
    obtain ⟨mem₁, h1, hstore⟩ := bind_eq_ok hstore
    obtain ⟨mem₂, h2, hstore⟩ := bind_eq_ok hstore
    obtain ⟨mem3, h3, hstore⟩ := bind_eq_ok hstore
    cases hstore
    have hlen2 : mem₂.length = mem₁.length := by
      unfold storeMeta at h2
      split at h2
      · obtain ⟨old, -, h2⟩ := bind_eq_ok h2
        exact (poke_bounds h2).1
      · rw [← Except.ok.inj h2]
    refine ⟨?_, ?_⟩
    · rw [hcur, sizeOfEntries_cons]
      show w.cur + headerSize l + metaSize l + k.rdata.data.length + _ = _
      unfold sizeOfRdata
      omega
    · rw [hmem]
      rw [(poke_bounds h3).1, hlen2, (poke_bounds h1).1]

theorem fillinOffsets_length {table : List ℕ} {j : ℕ} {mem mem' : Bytes}
    (h : fillinOffsets offsetbase table j mem = .ok mem') : mem'.length = mem.length := by
  induction table generalizing j mem with
  | nil =>
    cases h
    rfl
  | cons offset table ih =>
    rw [fillinOffsets] at h
    split at h
    · exact ih h
    obtain ⟨mem₁, h1, h⟩ := bind_eq_ok h
    obtain ⟨mem₂, h2, h⟩ := bind_eq_ok h
    rw [ih h, (poke_bounds h2).1, (poke_bounds h1).1]

theorem fillIn_length {w : Writer} {mem' : Bytes} (h : fillIn l offsetbase w = .ok mem') :
    mem'.length = w.mem.length := by
  unfold fillIn at h
  split at h
  · exact fillinOffsets_length h
  · cases h
    rfl

end Storing

/-! ### The slab of an rdataset -/

section Slabs

variable {l : Layout} {reservelen : ℕ} {rdataset : List Item} {q : Diff.Qsort} {heap : Heap}

/-- An rdataset that no check refuses. -/
structure Accepted (l : Layout) (rdataset : List Item) : Prop where
  ne : rdataset ≠ []
  count_le : rdataset.length ≤ 0xffff
  length_le : ∀ r ∈ rdataset, r.data.length + metaSize l ≤ 0xffff
  singleton : l.ops.issingleton l.type = true → ∀ r ∈ rdataset, ∀ s ∈ rdataset, l.ops.compare l.type r.data s.data = .eq

/-- The storage for some rdata, with their places in the offset table. -/
def storageOf (l : Layout) (rs : List Item) : ℕ := (rs.map (fun r => storage l r.data.length)).sum

theorem storageOf_eq (ks : List Xrdata) : storageOf l (ks.map Xrdata.rdata) = tableSize l ks.length + sizeOfEntries l ks := by
  unfold storageOf sizeOfEntries tableSize
  induction ks with
  | nil => simp
  | cons k ks ih =>
    rw [map_cons, map_cons, sum_cons, ih, map_cons, sum_cons, length_cons]
    unfold storage sizeOfRdata headerSize
    split <;> omega

theorem removed_kept : ∀ k ∈ kept l q rdataset, k.removed = false := by
  intro k hk
  simpa using (mem_filter.1 hk).2

variable [Std.TransCmp (l.ops.compare l.type)]

theorem Accepted.nitems (h : Accepted l rdataset) : ¬(1 < (kept l q rdataset).length ∧ l.ops.issingleton l.type = true) := by
  rintro ⟨hlt, hsingle⟩
  have hrising := (kept_spec (l := l) (q := q) h.ne).rising
  have hmem := fun k hk => @mem_of_kept l q rdataset _ h.ne k hk
  cases hkept : kept l q rdataset with
  | nil => simp [hkept] at hlt
  | cons a ks =>
    cases ks with
    | nil => simp [hkept] at hlt
    | cons b ks =>
      rw [hkept] at hrising hmem
      have hab : l.ops.compare l.type a.rdata.data b.rdata.data = .lt := (pairwise_cons.1 hrising).1 b mem_cons_self
      rw [h.singleton hsingle _ (hmem a mem_cons_self) _ (hmem b (by simp))] at hab
      cases hab

theorem kept_count_le (h : Accepted l rdataset) : (kept l q rdataset).length ≤ rdataset.length := by
  obtain ⟨x, xs, hsort, hkept, -⟩ := kept_eq (l := l) (q := q) h.ne
  have hperm := q.perm (compareRdata l) (entries rdataset)
  rw [hsort] at hperm
  have hlen := hperm.length_eq
  have hentries : (entries rdataset).length = rdataset.length := by
    unfold entries
    rw [length_map, length_zipIdx]
  have hle : ∀ (ys : List Xrdata) (x : Xrdata), (keptOf l x ys).length ≤ ys.length + 1 := by
    intro ys
    induction ys with
    | nil => exact fun x => Nat.le_refl 1
    | cons y ys ih =>
      intro x
      rw [keptOf]
      split
      · exact (ih _).trans (Nat.le_succ _)
      · exact Nat.succ_le_succ (ih y)
  rw [hkept, ← hentries, ← hlen]
  exact hle xs x

theorem fromrdataset_eq (h : Accepted l rdataset) : fromrdataset l q heap reservelen rdataset = (do
    let mem ← poke (heap.get ((reservelen + 2 + storageOf l ((kept l q rdataset).map Xrdata.rdata)) % 2 ^ 32)) reservelen
      (uint16Bytes (kept l q rdataset).length)
    let w ← (kept l q rdataset).foldlM (storeRdata l reservelen)
      ⟨mem, reservelen + 2 + tableSize l (kept l q rdataset).length, replicate rdataset.length 0⟩
    let mem ← fillIn l reservelen w
    pure (mem, w.cur)) := by
  have hnonempty : ¬(rdataset.length = 0 ∧ l.type ≠ 0) := fun hz => h.ne (length_eq_zero_iff.1 hz.1)
  have hstorage : ((kept l q rdataset).map (fun x => storage l x.rdata.data.length)).sum = storageOf l ((kept l q rdataset).map Xrdata.rdata) := by
    unfold storageOf
    rw [map_map]
    rfl
  have hcount := h.count_le
  unfold fromrdataset
  rw [if_neg hnonempty, if_neg (by omega)]
  show (if 1 < (kept l q rdataset).length ∧ l.ops.issingleton l.type = true then _ else _) = _
  rw [if_neg h.nitems]
  simp only [storeAll_filter (l := l) reservelen (sorted l q rdataset)]
  show (poke (heap.get ((reservelen + 2 + ((kept l q rdataset).map (fun x => storage l x.rdata.data.length)).sum) % 2 ^ 32)) reservelen _ >>= _) = _
  rw [hstorage]
  rfl

theorem Accepted.length_kept (h : Accepted l rdataset) : ∀ k ∈ kept l q rdataset, k.rdata.data.length + metaSize l ≤ 0xffff :=
  fun _ hk => h.length_le _ (mem_of_kept h.ne hk)

/-- The slab of an rdataset whose storage fits 32 bits; `P` is about the bytes that the memory holds before. -/
theorem fromrdataset_ok (h : Accepted l rdataset) {P : UInt8 → Prop} (hP : ∀ n, ∀ b ∈ heap.get n, P b)
    (hlt : reservelen + 2 + storageOf l ((kept l q rdataset).map Xrdata.rdata) < 2 ^ 32) : ∃ slab gs,
    fromrdataset l q heap reservelen rdataset = .ok (slab, slab.length) ∧ WellFormed l reservelen slab (ranked gs) ∧
      Forall₂ (Stores l P) (kept l q rdataset) gs := by
  rw [fromrdataset_eq h, Nat.mod_eq_of_lt hlt]
  have htotal := storageOf_eq (l := l) (kept l q rdataset)
  obtain ⟨buf, hbuf⟩ : ∃ buf, buf = heap.get (reservelen + 2 + storageOf l ((kept l q rdataset).map Xrdata.rdata)) := ⟨_, rfl⟩
  have hlength : buf.length = reservelen + 2 + tableSize l (kept l q rdataset).length + sizeOfEntries l (kept l q rdataset) := by
    rw [hbuf, heap.length_get]
    omega
  have hreserve : (buf.take reservelen).length = reservelen := by
    rw [length_take]
    omega
  obtain ⟨mem, back, hcount, hback, hsub, hw⟩ := @writing_count l (buf.take reservelen) reservelen rdataset.length hreserve buf
    (kept l q rdataset).length (sizeOfEntries l (kept l q rdataset)) hlength rfl
  have hfresh : ∀ b ∈ back, P b := by
    intro b hb
    have hmem := hsub hb
    rw [hbuf] at hmem
    exact hP _ b hmem
  have hkeys : l.fixed = true → (∀ k ∈ kept l q rdataset, k.order < rdataset.length) ∧
      (([] : List Draft).map Draft.key ++ (kept l q rdataset).map Xrdata.order).Nodup :=
    fun _ => ⟨kept_order_lt h.ne, kept_orders h.ne⟩
  obtain ⟨w, gs, hall, hw', hstores⟩ := storeAll_ok removed_kept h.length_kept hw hfresh hkeys hback.ge
  rw [nil_append, drop_of_length_le hback.le] at hw'
  have hlen : gs.length = (kept l q rdataset).length := hstores.length_eq.symm
  have hkeysof : gs.map Draft.key = (kept l q rdataset).map Xrdata.order := stores_map hstores (fun _ _ hkg => hkg.key)
  have hdata : gs.map (fun g => g.rr.data) = (kept l q rdataset).map (fun k => k.rdata.data) := stores_map hstores (fun _ _ hkg => hkg.data)
  have hnodup : (gs.map Draft.key).Nodup := hkeysof ▸ kept_orders h.ne
  have hbelow : ∀ g ∈ gs, g.key < rdataset.length := by
    intro g hg
    have hmem : g.key ∈ (kept l q rdataset).map Xrdata.order := hkeysof ▸ mem_map_of_mem hg
    obtain ⟨k, hk, heq⟩ := mem_map.1 hmem
    exact heq ▸ kept_order_lt h.ne k hk
  have hsize : storageSize l (gs.map Draft.rr) = storageOf l ((kept l q rdataset).map Xrdata.rdata) := by
    unfold storageSize storageOf
    rw [map_map, map_map]
    have hcongr := congrArg (List.map (fun d : Bytes => storage l d.length)) hdata
    rw [map_map, map_map] at hcongr
    exact congrArg sum hcongr
  have hrising : Rising l gs := by
    have hsorted := (kept_spec (l := l) (q := q) h.ne).rising
    have hpair : ((kept l q rdataset).map (fun k => k.rdata.data)).Pairwise (fun a b => l.ops.compare l.type a b = .lt) :=
      pairwise_map.2 hsorted
    rw [← hdata] at hpair
    exact pairwise_map.1 hpair
  have hbody : ∀ g ∈ gs, (g.rr.body l).length ≤ 0xffff := by
    intro g hg
    have hmem : g.rr.data ∈ (kept l q rdataset).map (fun k => k.rdata.data) := hdata ▸ mem_map_of_mem (f := fun g => g.rr.data) hg
    obtain ⟨k, hk, heq⟩ := mem_map.1 hmem
    rw [length_body, ← heq]
    exact h.length_kept k hk
  rw [← hlen] at hw'
  have hfill := hw'.fillIn (fun _ => ⟨hnodup, hbelow⟩)
  have hwell := @wellFormed_ranked l (buf.take reservelen) gs (fun hnil => kept_ne h.ne (length_eq_zero_iff.1 (by rw [← hlen, hnil]; rfl)))
    (hlen.le.trans ((kept_count_le h).trans h.count_le)) hbody hrising (fun _ => hnodup) (by rw [hreserve, hsize]; exact hlt)
  rw [hreserve] at hall hfill hwell
  have hcur : w.cur = reservelen + 2 + tableSize l (kept l q rdataset).length + sizeOfEntries l (kept l q rdataset) :=
    (storeAll_cur removed_kept hall).1
  have hslab := hwell.length
  rw [map_rr_ranked, hsize] at hslab
  have hend : w.cur = (image l (buf.take reservelen) (table l (ranked gs)).flatten ((ranked gs).map Stored.draft)).length := by
    rw [hslab, hcur]
    omega
  refine ⟨_, gs, ?_, hwell, hstores⟩
  rw [← hbuf, hcount, ok_then, hall, ok_then, hfill, ok_then, ← hend]
  rfl

theorem fromrdataset_fits (h : Accepted l rdataset) {slab : Bytes}
    (hok : fromrdataset l q heap reservelen rdataset = .ok (slab, slab.length)) :
    reservelen + 2 + storageOf l ((kept l q rdataset).map Xrdata.rdata) < 2 ^ 32 := by
  rw [fromrdataset_eq h] at hok
  obtain ⟨mem, hcount, hok⟩ := bind_eq_ok hok
  obtain ⟨w, hall, hok⟩ := bind_eq_ok hok
  obtain ⟨slab', hfill, hok⟩ := bind_eq_ok hok
  obtain ⟨rfl, hcur'⟩ := Prod.mk.inj (Except.ok.inj hok)
  obtain ⟨hcur, hmem⟩ := storeAll_cur removed_kept hall
  have hlen := fillIn_length hfill
  have hbuf := (poke_bounds hcount).1
  have htotal := storageOf_eq (l := l) (kept l q rdataset)
  have hmod := Nat.mod_lt (reservelen + 2 + storageOf l ((kept l q rdataset).map Xrdata.rdata)) (show 0 < 2 ^ 32 by decide)
  have hcur0 : w.cur = reservelen + 2 + tableSize l (kept l q rdataset).length + sizeOfEntries l (kept l q rdataset) := hcur
  have hmem0 : w.mem.length = mem.length := hmem
  rw [heap.length_get] at hbuf
  omega

end Slabs

end Bind9.RawSlab
