import Bind9.SlabImage

/-! # Writing a slab

The three functions that make a slab write its records one after the other and fill in the places of the load order at the end.
`Writing` is what holds in between, `fillinOffsets_spec` what comes out. -/

namespace Bind9.RawSlab

open List

/-! ### Memory -/

theorem poke_segment {a b bs : Bytes} {p : ℕ} (c : Bytes) (hp : p = a.length) (hlen : bs.length = b.length) :
    poke (a ++ (b ++ c)) p bs = .ok (a ++ (bs ++ c)) := by
  have hle : p + bs.length ≤ (a ++ (b ++ c)).length := by
    rw [length_append, length_append]
    omega
  have htake : (a ++ (b ++ c)).take p = a := by rw [hp, take_left]
  have hdrop : (a ++ (b ++ c)).drop (p + bs.length) = c := by
    rw [hp, hlen, ← drop_drop, drop_left, drop_left]
  unfold poke
  rw [if_pos hle, htake, hdrop, append_assoc]

theorem poke_bounds {mem mem' bs : Bytes} {p : ℕ} (h : poke mem p bs = .ok mem') :
    mem'.length = mem.length ∧ p + bs.length ≤ mem.length := by
  unfold poke at h
  split_ifs at h with hle
  have hmem := Except.ok.inj h
  refine ⟨?_, hle⟩
  rw [← hmem, length_append, length_append, length_take, length_drop]
  omega

section Writers

variable {l : Layout}

/-! ### Offsets -/

/-- The temporary offset table: the offsets of the records, by their keys. -/
structure Offsets (l : Layout) (start : ℕ) (gs : List Draft) (n : ℕ) (offsets : List ℕ) : Prop where
  length : offsets.length = n
  none : ∀ i, i < n → (∀ g ∈ gs, g.key ≠ i) → offsets[i]? = some 0
  some : ∀ a g b, gs = a ++ g :: b → offsets[g.key]? = some (start + recordsSize l (a.map Draft.rr))

theorem offsets_nil (start n : ℕ) : Offsets l start [] n (replicate n 0) := by
  refine ⟨length_replicate, fun i hi _ => ?_, fun a g b h => ?_⟩
  · rw [getElem?_replicate, if_pos hi]
  · exact absurd h (by simp)

theorem Offsets.snoc {start n : ℕ} {gs : List Draft} {offsets : List ℕ} (h : Offsets l start gs n offsets) {g : Draft}
    (hkey : g.key < n) (hfresh : ∀ x ∈ gs, x.key ≠ g.key) :
    Offsets l start (gs ++ [g]) n (offsets.set g.key (start + recordsSize l (gs.map Draft.rr))) := by
  refine ⟨by rw [length_set, h.length], fun i hi hno => ?_, fun a x b hx => ?_⟩
  · have hne : g.key ≠ i := hno g (by simp)
    rw [getElem?_set_ne hne]
    exact h.none i hi (fun x hx => hno x (by simp [hx]))
  · obtain ⟨c, rfl⟩ | ⟨rfl, hb⟩ : (∃ c, b = c ++ [g]) ∨ (b = [] ∧ gs = a ∧ g = x) := by
      obtain rfl | hb := eq_nil_or_concat b
      · obtain ⟨h1, h2⟩ := append_inj' hx rfl
        exact .inr ⟨rfl, h1, (cons.inj h2).1⟩
      obtain ⟨c, y, rfl⟩ := hb
      have hlast : gs ++ [g] = (a ++ x :: c) ++ [y] := by rw [hx]; simp
      obtain ⟨-, h2⟩ := append_inj' hlast rfl
      exact .inl ⟨c, by rw [(cons.inj h2).1, concat_eq_append]⟩
    · have hgs : gs = a ++ x :: c := by
        have hlast : gs ++ [g] = (a ++ x :: c) ++ [g] := by rw [hx]; simp
        exact (append_inj' hlast rfl).1
      have hne : g.key ≠ x.key := (hfresh x (by rw [hgs]; simp)).symm
      rw [getElem?_set_ne hne]
      exact h.some a x c hgs
    · obtain ⟨rfl, rfl⟩ := hb
      rw [getElem?_set_self (by rw [h.length]; exact hkey)]

/-! ### Records one after the other -/

/-- A slab of `n` records of which `gs` have been written; `back` is what the memory holds behind them. -/
structure Writing (l : Layout) (reserve : Bytes) (n keys : ℕ) (gs : List Draft) (back : Bytes) (w : Writer) : Prop where
  ord : ∀ g ∈ gs, g.ord.length = 2
  mem : ∃ tbl, tbl.length = tableSize l n ∧ w.mem = reserve ++ (uint16Bytes n ++ (tbl ++ (records l gs ++ back)))
  cur : w.cur = reserve.length + 2 + tableSize l n + recordsSize l (gs.map Draft.rr)
  offsets : l.fixed = true → Offsets l (2 + tableSize l n) gs keys w.offsettable

variable {reserve back : Bytes} {n keys : ℕ} {gs : List Draft} {w : Writer}

theorem writing_count (hreserve : reserve.length = n) {mem : Bytes} {count size : ℕ} (hmem : mem.length = n + 2 + tableSize l count + size)
    (hfront : mem.take n = reserve) : ∃ mem' back, poke mem n (uint16Bytes count) = .ok mem' ∧ back.length = size ∧ back ⊆ mem ∧
      Writing l reserve count keys [] back ⟨mem', n + 2 + tableSize l count, replicate keys 0⟩ := by
  have hcut : mem = reserve ++ ((mem.drop n).take 2 ++ (mem.drop n).drop 2) := by rw [take_append_drop, ← hfront, take_append_drop]
  have htwo : (uint16Bytes count).length = ((mem.drop n).take 2).length := by
    rw [length_uint16Bytes, length_take, length_drop]
    omega
  have hpoke := poke_segment ((mem.drop n).drop 2) hreserve.symm htwo
  rw [← hcut] at hpoke
  refine ⟨_, ((mem.drop n).drop 2).drop (tableSize l count), hpoke, ?_, ?_, nofun, ?_, ?_, fun _ => offsets_nil _ _⟩
  · rw [length_drop, length_drop, length_drop]
    omega
  · exact fun b hb => mem_of_mem_drop (mem_of_mem_drop (mem_of_mem_drop hb))
  · refine ⟨((mem.drop n).drop 2).take (tableSize l count), ?_, ?_⟩
    · rw [length_take, length_drop, length_drop]
      omega
    · show _ = reserve ++ (uint16Bytes count ++ (_ ++ ([] ++ _)))
      rw [nil_append, take_append_drop]
  · rw [hreserve]
    rfl

theorem writing_reserve {mem : Bytes} {count size : ℕ} (hmem : mem.length = reserve.length + 2 + tableSize l count + size) :
    ∃ mem₁ mem₂ back, poke mem 0 reserve = .ok mem₁ ∧ poke mem₁ reserve.length (uint16Bytes count) = .ok mem₂ ∧ back.length = size ∧
      Writing l reserve count keys [] back ⟨mem₂, reserve.length + 2 + tableSize l count, replicate keys 0⟩ := by
  have hlength : reserve.length = (mem.take reserve.length).length := by
    rw [length_take]
    omega
  have hpoke := @poke_segment [] (mem.take reserve.length) reserve 0 (mem.drop reserve.length) rfl hlength
  rw [nil_append, nil_append, take_append_drop] at hpoke
  obtain ⟨mem₂, back, h2, hback, -, hw⟩ := @writing_count l reserve reserve.length keys rfl (reserve ++ mem.drop reserve.length) count size
    (by rw [length_append, length_drop]; omega) take_left
  exact ⟨_, mem₂, back, hpoke, h2, hback, hw⟩

/-- Where the next record goes. -/
theorem Writing.front (h : Writing l reserve n keys gs back w) : ∃ front, w.mem = front ++ back ∧ w.cur = front.length ∧
    ∀ g : Draft, g.ord.length = 2 → ∀ back' offsettable, (l.fixed = true → Offsets l (2 + tableSize l n) (gs ++ [g]) keys offsettable) →
      Writing l reserve n keys (gs ++ [g]) back' ⟨front ++ (bytesOf l g ++ back'), w.cur + recordSize l g.rr, offsettable⟩ := by
  obtain ⟨tbl, htbl, hmem⟩ := h.mem
  refine ⟨reserve ++ (uint16Bytes n ++ (tbl ++ records l gs)), ?_, ?_, fun g hg back' offsettable hoff => ⟨?_, ⟨tbl, htbl, ?_⟩, ?_, hoff⟩⟩
  · rw [hmem]
    simp only [append_assoc]
  · rw [h.cur]
    simp only [length_append, length_uint16Bytes, htbl, length_records h.ord]
    omega
  · intro x hx
    obtain hx | hx := mem_append.1 hx
    · exact h.ord x hx
    · rw [mem_singleton.1 hx]
      exact hg
  · unfold records
    simp only [flatMap_append, flatMap_singleton, append_assoc]
  · show w.cur + recordSize l g.rr = _
    have hone : recordsSize l ([g].map Draft.rr) = recordSize l g.rr := Nat.add_zero _
    rw [h.cur, map_append, recordsSize_append, hone]
    omega

theorem Writing.noteOffset (h : Writing l reserve n keys gs back w) {g : Draft} {index : ℕ}
    (hkey : l.fixed = true → index = g.key ∧ g.key < keys ∧ ∀ x ∈ gs, x.key ≠ g.key) :
    ∃ offsettable, noteOffset l w.offsettable index (w.cur - reserve.length) = .ok offsettable ∧
      (l.fixed = true → Offsets l (2 + tableSize l n) (gs ++ [g]) keys offsettable) := by
  unfold RawSlab.noteOffset
  cases hfixed : l.fixed with
  | false => exact ⟨w.offsettable, rfl, nofun⟩
  | true =>
    obtain ⟨rfl, hlt, hfresh⟩ := hkey hfixed
    have hoff := h.offsets hfixed
    have hcur : w.cur - reserve.length = 2 + tableSize l n + recordsSize l (gs.map Draft.rr) := by
      rw [h.cur]
      omega
    refine ⟨_, ?_, fun _ => hoff.snoc hlt hfresh⟩
    unfold RawSlab.setAt
    rw [if_pos rfl, if_pos (by rw [hoff.length]; exact hlt), hcur]

/-- The memory behind the records, cut up for the next record. -/
theorem exists_pieces {r : Record} (hroom : recordSize l r ≤ back.length) : ∃ b1 b2 b3, back = b1 ++ (b2 ++ (b3 ++ back.drop (recordSize l r))) ∧
    b1.length = 2 ∧ b2.length = headerSize l - 2 ∧ b3.length = (r.body l).length := by
  have htwo := two_le_headerSize (l := l)
  unfold recordSize at hroom
  refine ⟨back.take 2, (back.drop 2).take (headerSize l - 2), (back.drop (headerSize l)).take (r.body l).length, ?_, ?_, ?_, ?_⟩
  · have h1 : back.drop (headerSize l) = (back.drop (headerSize l)).take (r.body l).length ++ back.drop (recordSize l r) := by
      conv_lhs => rw [← take_append_drop (r.body l).length (back.drop (headerSize l))]
      rw [drop_drop]
      rfl
    have h2 : back.drop 2 = (back.drop 2).take (headerSize l - 2) ++ back.drop (headerSize l) := by
      conv_lhs => rw [← take_append_drop (headerSize l - 2) (back.drop 2)]
      rw [drop_drop, Nat.add_sub_cancel' htwo]
    rw [← h1, ← h2, take_append_drop]
  · rw [length_take]
    omega
  · rw [length_take, length_drop]
    omega
  · rw [length_take, length_drop]
    omega

/-- The two bytes that are left for the order. -/
def leftOrd (l : Layout) (b : Bytes) : Bytes := if l.fixed then b else [0, 0]

theorem length_leftOrd {b : Bytes} (h : b.length = headerSize l - 2) : (leftOrd l b).length = 2 := by
  unfold leftOrd
  unfold headerSize at h
  cases hfixed : l.fixed with
  | true => simpa [hfixed] using h
  | false => rfl

theorem bytesOf_leftOrd {b : Bytes} {key : ℕ} {r : Record} (h : b.length = headerSize l - 2) :
    bytesOf l ⟨key, leftOrd l b, r⟩ = uint16Bytes (r.body l).length ++ (b ++ r.body l) := by
  unfold bytesOf leftOrd
  unfold headerSize at h
  cases hfixed : l.fixed with
  | true => rfl
  | false =>
    have hnil : b = [] := length_eq_zero_iff.1 (by simpa [hfixed] using h)
    rw [hnil]
    rfl

variable {g : Draft}

theorem copyRdata_ok (hw : Writing l reserve n keys gs back w) {slab rest : Bytes} {cur index key : ℕ}
    (hat : At l slab cur g rest) (offline : Bool) (hroom : recordSize l g.rr ≤ back.length)
    (hkey : l.fixed = true → index = key ∧ key < keys ∧ ∀ x ∈ gs, x.key ≠ key) : ∃ w' ord,
    copyRdata l reserve.length slab ⟨cur + headerSize l + metaSize l, g.rr.data.length, offline⟩ index w = .ok w' ∧
      Writing l reserve n keys (gs ++ [⟨key, ord, g.rr⟩]) (back.drop (recordSize l g.rr)) w' := by
  obtain ⟨front, hmem, hcur, hnext⟩ := hw.front
  obtain ⟨b1, b2, b3, hback, hb1, hb2, hb3⟩ := exists_pieces hroom
  obtain ⟨offsettable, hset, hoff⟩ := @Writing.noteOffset l reserve back n keys gs w hw ⟨key, leftOrd l b2, g.rr⟩ index hkey
  have hlength : g.rr.data.length + metaSize l = (g.rr.body l).length := (length_body g.rr).symm
  have hbase : cur + headerSize l + metaSize l - metaSize l = cur + headerSize l := by omega
  have hdata : bytesAt (slab.drop (cur + headerSize l)) (g.rr.body l).length = .ok (g.rr.body l) := by
    rw [hat.body]
    exact bytesAt_append rfl
  have hpoke1 : poke w.mem w.cur (uint16Bytes (g.rr.body l).length) =
      .ok (front ++ (uint16Bytes (g.rr.body l).length ++ (b2 ++ (b3 ++ back.drop (recordSize l g.rr))))) := by
    rw [hmem]
    conv_lhs => rw [hback]
    exact poke_segment _ hcur (by rw [length_uint16Bytes, hb1])
  have hpoke2 : poke (front ++ (uint16Bytes (g.rr.body l).length ++ (b2 ++ (b3 ++ back.drop (recordSize l g.rr)))))
      (w.cur + headerSize l) (g.rr.body l) =
      .ok (front ++ (bytesOf l ⟨key, leftOrd l b2, g.rr⟩ ++ back.drop (recordSize l g.rr))) := by
    have htwo := two_le_headerSize (l := l)
    have hfront : w.cur + headerSize l = (front ++ (uint16Bytes (g.rr.body l).length ++ b2)).length := by
      rw [length_append, length_append, length_uint16Bytes, hcur, hb2]
      omega
    have hsegment := poke_segment (back.drop (recordSize l g.rr)) hfront hb3.symm
    rw [bytesOf_leftOrd hb2]
    simp only [append_assoc] at hsegment ⊢
    exact hsegment
  refine ⟨_, leftOrd l b2, ?_, hnext ⟨key, leftOrd l b2, g.rr⟩ (length_leftOrd hb2) _ offsettable hoff⟩
  unfold copyRdata
  rw [hset]
  simp only [ok_then, hlength, hbase, hpoke1, hdata, hpoke2]
  show Except.ok _ = Except.ok _
  unfold recordSize
  rw [Nat.add_assoc]

theorem copyRdata_bounds {slab : Bytes} {r : SlabRdata} {offsetbase index : ℕ} {w' : Writer}
    (h : copyRdata l offsetbase slab r index w = .ok w') : w'.mem.length = w.mem.length ∧
      w'.cur = w.cur + headerSize l + (r.length + metaSize l) ∧ w'.cur ≤ w'.mem.length := by
  unfold copyRdata at h
  obtain ⟨offsettable, -, h⟩ := bind_eq_ok h
  obtain ⟨mem₁, h1, h⟩ := bind_eq_ok h
  obtain ⟨data, hdata, h⟩ := bind_eq_ok h
  obtain ⟨mem₂, h2, h⟩ := bind_eq_ok h
  cases h
  obtain ⟨hlen1, -⟩ := poke_bounds h1
  obtain ⟨hlen2, hle⟩ := poke_bounds h2
  have hlength : data.length = r.length + metaSize l := by
    unfold bytesAt at hdata
    split_ifs at hdata with hle'
    rw [← Except.ok.inj hdata, length_take]
    omega
  refine ⟨hlen2.trans hlen1, rfl, ?_⟩
  show w.cur + headerSize l + (r.length + metaSize l) ≤ mem₂.length
  omega

/-! ### The load order -/

/-- The place of a key in the load order. -/
def rank (gs : List Draft) (k : ℕ) : ℕ := gs.countP (fun g => decide (g.key < k))

/-- The records with their places in the load order. -/
def ranked (gs : List Draft) : List Stored := gs.map (fun g => ⟨rank gs g.key, g.rr⟩)

theorem rank_append (a b : List Draft) (k : ℕ) : rank (a ++ b) k = rank a k + rank b k := countP_append

theorem rank_cons (g : Draft) (b : List Draft) (k : ℕ) : rank (g :: b) k = rank b k + if g.key < k then 1 else 0 := by
  unfold rank
  rw [countP_cons]
  simp only [decide_eq_true_eq]

variable {a : List Draft}

theorem rank_succ_of_ne {i : ℕ} (h : ∀ g ∈ a, g.key ≠ i) : rank a (i + 1) = rank a i := by
  unfold rank
  refine countP_congr (fun g hg => ?_)
  have hne := h g hg
  simp only [decide_eq_true_eq]
  omega

theorem rank_mono (a : List Draft) {i j : ℕ} (h : i ≤ j) : rank a i ≤ rank a j := by
  unfold rank
  refine countP_mono_left (fun g _ hg => ?_)
  simp only [decide_eq_true_eq] at hg ⊢
  omega

theorem rank_le (a : List Draft) (k : ℕ) : rank a k ≤ a.length := countP_le_length

theorem rank_eq_length {k : ℕ} (h : ∀ g ∈ a, g.key < k) : rank a k = a.length :=
  countP_eq_length.2 (fun g hg => decide_eq_true (h g hg))

theorem rank_lt {k : ℕ} (hg : g ∈ a) (h : g.key < k) : rank a g.key < rank a k := by
  obtain ⟨c, d, rfl⟩ := append_of_mem hg
  rw [rank_append, rank_append, rank_cons, rank_cons, if_neg (lt_irrefl _), if_pos h]
  have h1 := rank_mono c h.le
  have h2 := rank_mono d h.le
  omega

theorem rank_lt_length (hg : g ∈ a) : rank a g.key < a.length := by
  obtain ⟨c, d, rfl⟩ := append_of_mem hg
  have h1 := rank_le c g.key
  have h2 := rank_le d g.key
  rw [rank_append, rank_cons, if_neg (lt_irrefl _), length_append, length_cons]
  omega

theorem rank_inj {g h : Draft} (hg : g ∈ a) (hh : h ∈ a) (heq : rank a g.key = rank a h.key) : g.key = h.key := by
  obtain hlt | heq' | hgt := lt_trichotomy g.key h.key
  · exact absurd heq (rank_lt hg hlt).ne
  · exact heq'
  · exact absurd heq (rank_lt hh hgt).ne'

theorem keys_ne {b : List Draft} (h : ((a ++ g :: b).map Draft.key).Nodup) :
    (∀ x ∈ a, x.key ≠ g.key) ∧ ∀ x ∈ b, x.key ≠ g.key := by
  rw [map_append, map_cons] at h
  obtain ⟨-, hb, hab⟩ := nodup_append.1 h
  refine ⟨fun x hx => hab _ (mem_map_of_mem hx) _ mem_cons_self, fun x hx heq => ?_⟩
  exact (nodup_cons.1 hb).1 (heq ▸ mem_map_of_mem hx)

theorem place_ranked {a b : List Draft} {g : Draft} {f : Draft → ℕ} (h : ∀ x ∈ a, f x ≠ f g) (start : ℕ) :
    place l (f g) start ((a ++ g :: b).map (fun x => ⟨f x, x.rr⟩)) = start + recordsSize l (a.map Draft.rr) := by
  induction a generalizing start with
  | nil => exact if_pos rfl
  | cons x a ih =>
    have hx : ¬f x = f g := h x mem_cons_self
    rw [cons_append, map_cons, place, if_neg hx, ih (fun y hy => h y (mem_cons_of_mem _ hy)), map_cons,
      recordsSize_cons, Nat.add_assoc]

def Draft.stored (g : Draft) : Stored := ⟨g.key, g.rr⟩

theorem stored_draft (rs : List Stored) : (rs.map Stored.draft).map Draft.stored = rs := by
  rw [map_map]
  exact map_id rs

/-- The bytes that are kept for the order do not matter. -/
theorem ranked_congr {gs hs : List Draft} (h : gs.map Draft.stored = hs.map Draft.stored) : ranked gs = ranked hs := by
  have hrank : ∀ (xs : List Draft) k, rank xs k = (xs.map Draft.stored).countP (fun s => decide (s.order < k)) := by
    intro xs k
    rw [countP_map]
    rfl
  have hranked : ∀ xs : List Draft, ranked xs =
      (xs.map Draft.stored).map (fun s => ⟨(xs.map Draft.stored).countP (fun x => decide (x.order < s.order)), s.rr⟩) := by
    intro xs
    unfold ranked
    rw [map_map]
    exact map_congr_left (fun g _ => congrArg (fun k => Stored.mk k g.rr) (hrank xs g.key))
  rw [hranked gs, hranked hs, h]

theorem length_ranked (gs : List Draft) : (ranked gs).length = gs.length := length_map _

theorem map_rr_ranked (gs : List Draft) : (ranked gs).map Stored.rr = gs.map Draft.rr := by
  unfold ranked
  rw [map_map]
  rfl

/-! ### `fillin_offsets` -/

/-- A record whose order has been filled in if its key is below `i`. -/
def fillDraft (f : ℕ → ℕ) (i : ℕ) (g : Draft) : Draft := if g.key < i then { g with ord := uint16Bytes (f g.key) } else g

theorem rr_fillDraft (f : ℕ → ℕ) (i : ℕ) (g : Draft) : (fillDraft f i g).rr = g.rr := by
  unfold fillDraft
  split <;> rfl

theorem fillDraft_succ {f : ℕ → ℕ} {i : ℕ} (h : g.key ≠ i) : fillDraft f (i + 1) g = fillDraft f i g := by
  have hiff : g.key < i + 1 ↔ g.key < i := by omega
  unfold fillDraft
  simp only [hiff]

theorem map_rr_fillDraft (f : ℕ → ℕ) (i : ℕ) (gs : List Draft) : (gs.map (fillDraft f i)).map Draft.rr = gs.map Draft.rr := by
  rw [map_map]
  exact map_congr_left (fun g _ => rr_fillDraft f i g)

theorem ord_fillDraft {f : ℕ → ℕ} {i : ℕ} {gs : List Draft} (h : ∀ g ∈ gs, g.ord.length = 2) :
    ∀ g ∈ gs.map (fillDraft f i), g.ord.length = 2 := by
  intro g hg
  obtain ⟨x, hx, rfl⟩ := mem_map.1 hg
  unfold fillDraft
  split
  · rfl
  · exact h x hx

theorem records_append (a b : List Draft) : records l (a ++ b) = records l a ++ records l b := flatMap_append

theorem records_cons (g : Draft) (b : List Draft) : records l (g :: b) = bytesOf l g ++ records l b := flatMap_cons

theorem poke_order (hfixed : l.fixed = true) {a b : List Draft} {g : Draft} (ha : ∀ x ∈ a, x.ord.length = 2) (hg : g.ord.length = 2)
    {front : Bytes} {p : ℕ} (hp : p = front.length + recordsSize l (a.map Draft.rr) + 2) (j : ℕ) :
    poke (front ++ records l (a ++ g :: b)) p (uint16Bytes j) =
      .ok (front ++ records l (a ++ { g with ord := uint16Bytes j } :: b)) := by
  have hbytes : ∀ ord, bytesOf l { g with ord := ord } = uint16Bytes (g.rr.body l).length ++ (ord ++ g.rr.body l) := by
    intro ord
    unfold bytesOf
    rw [if_pos hfixed]
  have hsegment := @poke_segment (front ++ (records l a ++ uint16Bytes (g.rr.body l).length)) g.ord (uint16Bytes j) p
    (g.rr.body l ++ records l b)
    (by rw [hp, length_append, length_append, length_records ha, length_uint16Bytes, Nat.add_assoc]) hg.symm
  have hg' : bytesOf l g = uint16Bytes (g.rr.body l).length ++ (g.ord ++ g.rr.body l) := hbytes g.ord
  rw [records_append, records_append, records_cons, records_cons, hg', hbytes]
  simp only [append_assoc] at hsegment ⊢
  exact hsegment

section Fill

variable {reserve : Bytes} {gs : List Draft} {keys : ℕ} {offsets : List ℕ}

theorem fillinOffsets_from (hfixed : l.fixed = true) (hord : ∀ g ∈ gs, g.ord.length = 2) (hnodup : (gs.map Draft.key).Nodup)
    (hkeys : ∀ g ∈ gs, g.key < keys) (hoff : Offsets l (2 + tableSize l gs.length) gs keys offsets) {T : List Bytes}
    (hlen : T.length = gs.length) (hfour : ∀ e ∈ T, e.length = 4)
    (hT : ∀ a g b, gs = a ++ g :: b → T[rank gs g.key]? = some (uint32Bytes (2 + tableSize l gs.length + recordsSize l (a.map Draft.rr)))) :
    ∀ (rest : List ℕ) (i : ℕ) (tail : Bytes), i ≤ keys → offsets.drop i = rest → tail.length = 4 * (gs.length - rank gs i) →
      fillinOffsets reserve.length rest (rank gs i) (reserve ++ (uint16Bytes gs.length ++ ((T.take (rank gs i)).flatten ++ (tail ++
        records l (gs.map (fillDraft (rank gs) i)))))) =
        .ok (reserve ++ (uint16Bytes gs.length ++ (T.flatten ++ records l (gs.map (fillDraft (rank gs) keys))))) := by
  intro rest
  induction rest with
  | nil =>
    intro i tail hi hdrop htail
    have hkeysle : keys ≤ i := by
      rw [← hoff.length]
      exact drop_eq_nil_iff.1 hdrop
    obtain rfl : i = keys := by omega
    have hall : rank gs i = gs.length := rank_eq_length hkeys
    have hnil : tail = [] := length_eq_zero_iff.1 (by rw [htail, hall]; omega)
    have htake : T.take (rank gs i) = T := take_of_length_le (by omega)
    rw [htake, hnil]
    rfl
  | cons offset rest ih =>
    intro i tail hi hdrop htail
    have hlt : i < keys := by
      rw [← hoff.length]
      by_contra hge
      rw [drop_of_length_le (by omega)] at hdrop
      cases hdrop
    have hget : offsets[i]? = some offset := by
      have hhead := congrArg (fun xs => xs[0]?) hdrop
      simpa [getElem?_drop] using hhead
    have hnext : offsets.drop (i + 1) = rest := by
      rw [← drop_drop, hdrop]
      rfl
    by_cases hfound : ∃ g ∈ gs, g.key = i
    · obtain ⟨g, hg, rfl⟩ := hfound
      obtain ⟨a, b, hgs⟩ := append_of_mem hg
      obtain ⟨hna, hnb⟩ := keys_ne (hgs ▸ hnodup)
      have hoffset : offset = 2 + tableSize l gs.length + recordsSize l (a.map Draft.rr) := by
        rw [hoff.some a g b hgs] at hget
        exact (Option.some.inj hget).symm
      have hrank : rank gs (g.key + 1) = rank gs g.key + 1 := by
        rw [hgs, rank_append, rank_append, rank_cons, rank_cons, rank_succ_of_ne hna, rank_succ_of_ne hnb, if_pos (Nat.lt_succ_self _),
          if_neg (lt_irrefl _)]
        omega
      have hrlt : rank gs g.key < gs.length := rank_lt_length hg
      have hTget := hT a g b hgs
      rw [← hoffset] at hTget
      have htake : T.take (rank gs g.key + 1) = T.take (rank gs g.key) ++ [uint32Bytes offset] := by
        rw [take_add_one, hTget]
        rfl
      have hflat : (T.take (rank gs g.key)).flatten.length = 4 * rank gs g.key := by
        rw [length_flatten, map_congr_left (g := fun _ => 4) (fun e he => hfour e (mem_of_mem_take he)), map_const',
          sum_replicate, length_take, smul_eq_mul]
        rw [Nat.min_eq_left (by omega), Nat.mul_comm]
      have htable : tableSize l gs.length = 4 * gs.length := if_pos hfixed
      have htail1 : (tail.take 4).length = 4 := by
        rw [length_take]
        omega
      have htail2 : (tail.drop 4).length = 4 * (gs.length - rank gs (g.key + 1)) := by
        rw [length_drop, hrank]
        omega
      -- the entry of the table
      have hpoke1 : poke (reserve ++ (uint16Bytes gs.length ++ ((T.take (rank gs g.key)).flatten ++ (tail ++
          records l (gs.map (fillDraft (rank gs) g.key)))))) (reserve.length + rank gs g.key * 4 + 2) (uint32Bytes offset) =
          .ok (reserve ++ (uint16Bytes gs.length ++ ((T.take (rank gs (g.key + 1))).flatten ++ (tail.drop 4 ++
            records l (gs.map (fillDraft (rank gs) g.key)))))) := by
        have hsegment := @poke_segment (reserve ++ (uint16Bytes gs.length ++ (T.take (rank gs g.key)).flatten)) (tail.take 4)
          (uint32Bytes offset) (reserve.length + rank gs g.key * 4 + 2)
          (tail.drop 4 ++ records l (gs.map (fillDraft (rank gs) g.key)))
          (by rw [length_append, length_append, hflat, length_uint16Bytes]; omega) htail1.symm
        conv_lhs => rw [← take_append_drop 4 tail]
        rw [hrank, htake, flatten_append, flatten_singleton]
        simp only [append_assoc] at hsegment ⊢
        exact hsegment
      -- the order of the record
      have hself : fillDraft (rank gs) g.key g = g := if_neg (lt_irrefl _)
      have hfilled : fillDraft (rank gs) (g.key + 1) g = { g with ord := uint16Bytes (rank gs g.key) } := if_pos (Nat.lt_succ_self _)
      have hmap : gs.map (fillDraft (rank gs) g.key) =
          a.map (fillDraft (rank gs) g.key) ++ g :: b.map (fillDraft (rank gs) g.key) := by
        conv_lhs => rw [hgs]
        rw [map_append, map_cons, ← hgs, hself]
      have hmap' : gs.map (fillDraft (rank gs) (g.key + 1)) =
          a.map (fillDraft (rank gs) g.key) ++ { g with ord := uint16Bytes (rank gs g.key) } :: b.map (fillDraft (rank gs) g.key) := by
        conv_lhs => rw [hgs]
        rw [map_append, map_cons, ← hgs, hfilled, map_congr_left (fun x hx => fillDraft_succ (hna x hx)),
          map_congr_left (fun x hx => fillDraft_succ (hnb x hx))]
      have hpoke2 : poke (reserve ++ (uint16Bytes gs.length ++ ((T.take (rank gs (g.key + 1))).flatten ++ (tail.drop 4 ++
          records l (gs.map (fillDraft (rank gs) g.key)))))) (reserve.length + offset + 2) (uint16Bytes (rank gs g.key)) =
          .ok (reserve ++ (uint16Bytes gs.length ++ ((T.take (rank gs (g.key + 1))).flatten ++ (tail.drop 4 ++
            records l (gs.map (fillDraft (rank gs) (g.key + 1))))))) := by
        have hlength : (T.take (rank gs (g.key + 1))).flatten.length = 4 * rank gs g.key + 4 := by
          rw [hrank, htake, flatten_append, length_append, hflat]
          rfl
        have horder := @poke_order l hfixed (a.map (fillDraft (rank gs) g.key)) (b.map (fillDraft (rank gs) g.key)) g
          (ord_fillDraft (fun x hx => hord x (by rw [hgs]; exact mem_append_left _ hx))) (hord g hg)
          (reserve ++ (uint16Bytes gs.length ++ ((T.take (rank gs (g.key + 1))).flatten ++ tail.drop 4))) (reserve.length + offset + 2)
          (by
            rw [map_rr_fillDraft, hoffset, length_append, length_append, length_append, hlength, htail2,
              length_uint16Bytes, htable]
            omega) (rank gs g.key)
        rw [hmap, hmap']
        simp only [append_assoc] at horder ⊢
        exact horder
      have hne : ¬offset = 0 := by omega
      rw [fillinOffsets, if_neg hne, hpoke1, ok_then, hpoke2, ok_then, ← hrank]
      exact ih (g.key + 1) (tail.drop 4) hlt hnext htail2
    have hno : ∀ g ∈ gs, g.key ≠ i := fun g hg heq => hfound ⟨g, hg, heq⟩
    have hzero : offset = 0 := by
      rw [hoff.none i hlt hno] at hget
      exact (Option.some.inj hget).symm
    have hrank : rank gs (i + 1) = rank gs i := rank_succ_of_ne hno
    have hfill : gs.map (fillDraft (rank gs) (i + 1)) = gs.map (fillDraft (rank gs) i) :=
      map_congr_left (fun g hg => fillDraft_succ (hno g hg))
    have hstep := ih (i + 1) tail hlt hnext (by rw [hrank]; exact htail)
    rw [hrank, hfill] at hstep
    rw [fillinOffsets, if_pos hzero]
    exact hstep

/-! ### The finished slab -/

theorem orders_ranked (hnodup : (gs.map Draft.key).Nodup) : ((ranked gs).map Stored.order).Perm (range gs.length) := by
  have hsame : (ranked gs).map Stored.order = gs.map (fun g => rank gs g.key) := by
    unfold ranked
    rw [map_map]
    rfl
  have hdistinct : (gs.map (fun g => rank gs g.key)).Nodup := by
    have hgs : gs.Nodup := List.Nodup.of_map _ hnodup
    refine hgs.map_on (fun g hg x hx heq => ?_)
    exact inj_on_of_nodup_map hnodup hg hx (rank_inj hg hx heq)
  have hsub : gs.map (fun g => rank gs g.key) ⊆ range gs.length := by
    intro k hk
    obtain ⟨g, hg, rfl⟩ := mem_map.1 hk
    exact mem_range.2 (rank_lt_length hg)
  rw [hsame]
  apply (subperm_of_subset hdistinct hsub).perm_of_length_le
  rw [length_range, length_map]

theorem table_ranked (hfixed : l.fixed = true) (hnodup : (gs.map Draft.key).Nodup) {b : List Draft} {g : Draft}
    (hgs : gs = a ++ g :: b) : (table l (ranked gs))[rank gs g.key]? =
      some (uint32Bytes (2 + tableSize l gs.length + recordsSize l (a.map Draft.rr))) := by
  have hg : g ∈ gs := by rw [hgs]; exact mem_append_right _ mem_cons_self
  have hsize : tableSize l gs.length = 4 * gs.length := if_pos hfixed
  have hne : ∀ x ∈ a, rank gs x.key ≠ rank gs g.key := by
    intro x hx heq
    have hx' : x ∈ gs := by rw [hgs]; exact mem_append_left _ hx
    exact (keys_ne (hgs ▸ hnodup)).1 x hx (rank_inj hx' hg heq)
  have hplace := @place_ranked l a b g (fun x => rank gs x.key) hne (2 + 4 * gs.length)
  rw [← hgs] at hplace
  unfold table
  rw [if_pos hfixed, getElem?_map, length_ranked, getElem?_range (rank_lt_length hg), hsize]
  exact congrArg (fun p => some (uint32Bytes p)) hplace

theorem bytesOf_congr {g h : Draft} (hrr : g.rr = h.rr) (hord : l.fixed = true → g.ord = h.ord) : bytesOf l g = bytesOf l h := by
  unfold bytesOf
  cases hfixed : l.fixed with
  | true => rw [hrr, hord hfixed]
  | false =>
    rw [hrr]
    rfl

theorem records_congr {f h : Draft → Draft} (hrr : ∀ g ∈ gs, (f g).rr = (h g).rr)
    (hord : l.fixed = true → ∀ g ∈ gs, (f g).ord = (h g).ord) : records l (gs.map f) = records l (gs.map h) := by
  unfold records
  rw [flatMap_map, flatMap_map]
  exact flatMap_congr (fun g hg => bytesOf_congr (hrr g hg) (fun hfixed => hord hfixed g hg))

theorem Writing.fillIn {w : Writer} (h : Writing l reserve gs.length keys gs [] w)
    (hkeys : l.fixed = true → (gs.map Draft.key).Nodup ∧ ∀ g ∈ gs, g.key < keys) :
    fillIn l reserve.length w = .ok (image l reserve (table l (ranked gs)).flatten ((ranked gs).map Stored.draft)) := by
  obtain ⟨tbl, htbl, hmem⟩ := h.mem
  have hdraft : (ranked gs).map Stored.draft = gs.map (fun g => ⟨rank gs g.key, uint16Bytes (rank gs g.key), g.rr⟩) := by
    unfold ranked
    rw [map_map]
    rfl
  unfold RawSlab.fillIn image
  rw [length_map, length_ranked, hdraft, hmem, append_nil]
  cases hfixed : l.fixed with
  | false =>
    have hnil : tbl = [] := by
      unfold tableSize at htbl
      rw [hfixed] at htbl
      exact length_eq_zero_iff.1 htbl
    have htable : (table l (ranked gs)).flatten = [] := by
      unfold table
      rw [hfixed]
      rfl
    have hsame : records l gs = records l (gs.map (fun g => ⟨rank gs g.key, uint16Bytes (rank gs g.key), g.rr⟩)) := by
      conv_lhs => rw [← map_id gs]
      exact records_congr (fun _ _ => rfl) (fun hf => absurd hf (by rw [hfixed]; decide))
    rw [if_neg (by decide), htable, hnil, ← hsame]
  | true =>
    obtain ⟨hnodup, hlt⟩ := hkeys hfixed
    have hzero : rank gs 0 = 0 := by
      unfold rank
      exact countP_eq_zero.2 (fun g _ => by simp)
    have hstart : gs.map (fillDraft (rank gs) 0) = gs := by
      conv_rhs => rw [← map_id gs]
      exact map_congr_left (fun g _ => if_neg (Nat.not_lt_zero _))
    have hlen : (table l (ranked gs)).length = gs.length := by
      unfold table
      rw [if_pos hfixed, length_map, length_range, length_ranked]
    have hfour : ∀ e ∈ table l (ranked gs), e.length = 4 := by
      intro e he
      unfold table at he
      rw [if_pos hfixed] at he
      obtain ⟨j, -, rfl⟩ := mem_map.1 he
      rfl
    have hfrom := @fillinOffsets_from l reserve gs keys w.offsettable hfixed h.ord hnodup hlt (h.offsets hfixed) (table l (ranked gs))
      hlen hfour (fun a g b hgs => table_ranked hfixed hnodup hgs) w.offsettable 0 tbl (Nat.zero_le _) rfl
      (by rw [htbl, hzero, Nat.sub_zero]; exact if_pos hfixed)
    rw [hzero, hstart] at hfrom
    have hsame : records l (gs.map (fillDraft (rank gs) keys)) =
        records l (gs.map (fun g => ⟨rank gs g.key, uint16Bytes (rank gs g.key), g.rr⟩)) := by
      apply records_congr
      · exact fun g _ => rr_fillDraft _ _ _
      · intro _ g hg
        unfold fillDraft
        rw [if_pos (hlt g hg)]
    rw [if_pos rfl, ← hsame]
    exact hfrom

theorem wellFormed_ranked (hne : gs ≠ []) (hcount : gs.length ≤ 0xffff) (hbody : ∀ g ∈ gs, (g.rr.body l).length ≤ 0xffff)
    (hrising : Rising l gs) (hnodup : l.fixed = true → (gs.map Draft.key).Nodup)
    (hlt : reserve.length + 2 + storageSize l (gs.map Draft.rr) < 2 ^ 32) :
    WellFormed l reserve.length (image l reserve (table l (ranked gs)).flatten ((ranked gs).map Stored.draft)) (ranked gs) := by
  refine ⟨?_, ?_, ?_, ?_, ?_, ⟨reserve, rfl, rfl⟩, ?_⟩
  · intro hnil
    exact hne (map_eq_nil_iff.1 hnil)
  · rw [length_ranked]
    exact hcount
  · intro s hs
    obtain ⟨g, hg, rfl⟩ := mem_map.1 hs
    exact hbody g hg
  · exact pairwise_map.2 hrising
  · intro hfixed
    rw [length_ranked]
    exact orders_ranked (hnodup hfixed)
  · unfold image
    rw [length_append, length_append, length_append, length_uint16Bytes, length_table,
      length_records (ord_draft (ranked gs)), map_rr_draft, map_rr_ranked, length_ranked]
    rw [storageSize_eq, length_map] at hlt
    omega

/-! ### The load order -/

theorem loadOrder_ranked {hs : List Draft} (hperm : hs.Perm gs) (hsorted : hs.Pairwise (fun a b => a.key < b.key)) :
    loadOrder (ranked gs) = hs.map Draft.rr := by
  have hranked : ((ranked gs).mergeSort (fun a b => decide (a.order ≤ b.order))) = hs.map (fun g => ⟨rank gs g.key, g.rr⟩) := by
    have hp : (hs.map (fun g => (⟨rank gs g.key, g.rr⟩ : Stored))).Perm (ranked gs) := hperm.map _
    have hstrict : (hs.map (fun g => (⟨rank gs g.key, g.rr⟩ : Stored))).Pairwise (fun a b => a.order < b.order) := by
      rw [pairwise_map]
      exact hsorted.imp_of_mem (fun ha _ hab => rank_lt (hperm.mem_iff.1 ha) hab)
    have hmerge : ((ranked gs).mergeSort (fun a b => decide (a.order ≤ b.order))).Pairwise (fun a b => a.order ≤ b.order) := by
      have hpair := @pairwise_mergeSort Stored (fun a b => decide (a.order ≤ b.order))
        (fun a b c hab hbc => decide_eq_true (le_trans (of_decide_eq_true hab) (of_decide_eq_true hbc)))
        (fun a b => by simpa using Nat.le_total a.order b.order) (ranked gs)
      exact hpair.imp of_decide_eq_true
    have hsame := (mergeSort_perm (ranked gs) (fun a b => decide (a.order ≤ b.order))).trans hp.symm
    refine Perm.eq_of_pairwise (fun a b ha hb hab hba => ?_) hmerge (hstrict.imp le_of_lt) hsame
    have horder : a.order = b.order := le_antisymm hab hba
    have ha' := hsame.mem_iff.1 ha
    -- the orders of the list are distinct
    have hnodup : ((hs.map (fun g => (⟨rank gs g.key, g.rr⟩ : Stored))).map Stored.order).Nodup :=
      (pairwise_map.2 hstrict).imp ne_of_lt
    exact inj_on_of_nodup_map hnodup ha' hb horder
  unfold loadOrder
  rw [hranked, map_map]
  rfl

end Fill

end Writers

end Bind9.RawSlab
