import Bind9.SlabBytes

/-! # What the bytes of a slab mean

A slab is known by its records: `WellFormed` says which bytes stand for a list of records.  The functions that read a slab are
described by its records. -/

namespace Bind9.RawSlab

open List

/-- A record of a slab; only an RRSIG has a byte of meta data. -/
structure Record where
  mark : UInt8
  data : Bytes
deriving DecidableEq, Repr

/-- A record with the two bytes that are kept for its place in the load order, and the place it is meant for. -/
structure Draft where
  key : ℕ
  ord : Bytes
  rr : Record
deriving DecidableEq, Repr

/-- A record with its place in the load order. -/
structure Stored where
  order : ℕ
  rr : Record
deriving DecidableEq, Repr

def Stored.draft (s : Stored) : Draft := ⟨s.order, uint16Bytes s.order, s.rr⟩

section Image

variable (l : Layout)

/-- What the length of a record counts. -/
def Record.body (r : Record) : Bytes := if l.type = rrsig then r.mark :: r.data else r.data

def Record.offline (r : Record) : Bool := if l.type = rrsig then r.mark &&& OFFLINE != 0 else false

def bytesOf (g : Draft) : Bytes :=
  uint16Bytes (g.rr.body l).length ++ ((if l.fixed then g.ord else []) ++ g.rr.body l)

def records (gs : List Draft) : Bytes := gs.flatMap (bytesOf l)

/-- The number of bytes of a record. -/
def recordSize (r : Record) : ℕ := headerSize l + (r.body l).length

/-- The number of bytes of the records. -/
def recordsSize (rs : List Record) : ℕ := (rs.map (recordSize l)).sum

/-- A slab that is being written. -/
def image (reserve table : Bytes) (gs : List Draft) : Bytes :=
  reserve ++ (uint16Bytes gs.length ++ (table ++ records l gs))

/-- Where the record with the order `j` is, if the first one is at `start`. -/
def place (j : ℕ) : ℕ → List Stored → ℕ
  | _, [] => 0
  | start, s :: rs => if s.order = j then start else place j (start + recordSize l s.rr) rs

def table (rs : List Stored) : List Bytes :=
  if l.fixed then (range rs.length).map (fun j => uint32Bytes (place l j (2 + 4 * rs.length) rs)) else []

/-- A slab with its records in DNSSEC order. -/
structure WellFormed (reservelen : ℕ) (slab : Bytes) (rs : List Stored) : Prop where
  ne : rs ≠ []
  count_le : rs.length ≤ 0xffff
  body_le : ∀ s ∈ rs, (s.rr.body l).length ≤ 0xffff
  sorted : rs.Pairwise (fun a b => l.ops.compare l.type a.rr.data b.rr.data = .lt)
  orders : l.fixed = true → (rs.map Stored.order).Perm (range rs.length)
  bytes : ∃ reserve, reserve.length = reservelen ∧ slab = image l reserve (table l rs).flatten (rs.map Stored.draft)
  length_lt : slab.length < 2 ^ 32

def loadOrder (rs : List Stored) : List Record := (rs.mergeSort (fun a b => decide (a.order ≤ b.order))).map Stored.rr

end Image

/-! ### Sizes -/

variable {gs : List Draft}

section Sizes

variable {l : Layout}

theorem length_uint16Bytes (v : ℕ) : (uint16Bytes v).length = 2 := rfl

theorem length_body (r : Record) : (r.body l).length = r.data.length + metaSize l := by
  unfold Record.body metaSize
  split
  · rfl
  · rfl

theorem length_bytesOf {g : Draft} (hord : g.ord.length = 2) : (bytesOf l g).length = recordSize l g.rr := by
  unfold bytesOf recordSize headerSize
  rw [length_append, length_append, length_uint16Bytes]
  split
  · omega
  · rw [length_nil]
    omega

theorem length_records (hord : ∀ g ∈ gs, g.ord.length = 2) : (records l gs).length = recordsSize l (gs.map Draft.rr) := by
  unfold records recordsSize
  induction gs with
  | nil => rfl
  | cons g gs ih =>
    have hg := hord g mem_cons_self
    have hgs := ih (fun x hx => hord x (mem_cons_of_mem _ hx))
    rw [flatMap_cons, length_append, length_bytesOf hg, hgs, map_cons, map_cons, sum_cons]

theorem recordsSize_append (a b : List Record) : recordsSize l (a ++ b) = recordsSize l a + recordsSize l b := by
  unfold recordsSize
  rw [map_append, sum_append]

theorem recordsSize_cons (r : Record) (b : List Record) : recordsSize l (r :: b) = recordSize l r + recordsSize l b := rfl

theorem two_le_headerSize : 2 ≤ headerSize l := by
  unfold headerSize
  split <;> omega

theorem length_table (rs : List Stored) : (table l rs).flatten.length = tableSize l rs.length := by
  unfold table tableSize
  split
  · rw [length_flatten, map_map]
    have hfour : ((List.length ∘ fun j => uint32Bytes (place l j (2 + 4 * rs.length) rs))) = fun _ => 4 := rfl
    rw [hfour, map_const', length_range, sum_replicate, smul_eq_mul, Nat.mul_comm]
  · rfl

end Sizes

/-! ### Reading -/

section Reading

variable {l : Layout} {slab rest : Bytes} {cur : ℕ} {g : Draft}

theorem byteAt_drop {xs : Bytes} (h : slab.drop cur = xs) (i : ℕ) : byteAt slab (cur + i) = byteAt xs i := by
  unfold byteAt
  rw [← h, getElem?_drop]

theorem peek16_drop {v : ℕ} (hv : v ≤ 0xffff) (h : slab.drop cur = uint16Bytes v ++ rest) : peek16 slab cur = .ok v := by
  have h0 := byteAt_drop h 0
  have h1 := byteAt_drop h 1
  unfold peek16
  rw [Nat.add_zero] at h0
  rw [h0, h1]
  show Except.ok ((UInt8.ofNat (v / 256)).toNat * 256 + (UInt8.ofNat (v % 256)).toNat) = Except.ok v
  rw [UInt8.toNat_ofNat', UInt8.toNat_ofNat']
  congr 1
  omega

/-- A record at `cur`. -/
structure At (l : Layout) (slab : Bytes) (cur : ℕ) (g : Draft) (rest : Bytes) : Prop where
  drop : slab.drop cur = bytesOf l g ++ rest
  ord : g.ord.length = 2
  body_le : (g.rr.body l).length ≤ 0xffff

theorem At.length (h : At l slab cur g rest) : peek16 slab cur = .ok (g.rr.body l).length := by
  have hdrop := h.drop
  unfold bytesOf at hdrop
  rw [append_assoc] at hdrop
  exact peek16_drop h.body_le hdrop

theorem At.skip (h : At l slab cur g rest) : slab.drop (cur + recordSize l g.rr) = rest := by
  rw [← drop_drop, h.drop, ← length_bytesOf (l := l) h.ord, drop_left]

theorem At.body (h : At l slab cur g rest) : slab.drop (cur + headerSize l) = g.rr.body l ++ rest := by
  have hlen : (uint16Bytes (g.rr.body l).length ++ if l.fixed then g.ord else []).length = headerSize l := by
    unfold headerSize
    rw [length_append, length_uint16Bytes]
    split
    · rw [h.ord]
    · rfl
  rw [← drop_drop, h.drop, ← hlen]
  unfold bytesOf
  rw [← append_assoc, append_assoc, drop_left]

theorem At.data (h : At l slab cur g rest) : slab.drop (cur + headerSize l + metaSize l) = g.rr.data ++ rest := by
  rw [← drop_drop, h.body]
  unfold Record.body metaSize
  split
  · rfl
  · rfl

theorem decrement_succ {n : ℕ} (h : n < 0xffff) : decrement (n + 1) = n := by
  unfold decrement
  omega

/-- The flag that `rdata_from_slab` finds: in the fixed layout it looks at the first byte of the order. -/
def seenOffline (l : Layout) (g : Draft) : Bool :=
  if l.type = rrsig then (if l.fixed then g.ord.headD 0 else g.rr.mark) &&& OFFLINE != 0 else false

theorem At.rdataFromSlab (h : At l slab cur g rest) : rdataFromSlab l slab cur =
    .ok (⟨cur + headerSize l + metaSize l, g.rr.data.length, seenOffline l g⟩, cur + recordSize l g.rr) := by
  have hbody := h.body_le
  rw [length_body] at hbody
  have hdrop := h.drop
  unfold bytesOf at hdrop
  have hthird : byteAt slab (cur + 2) = byteAt ((if l.fixed then g.ord else []) ++ g.rr.body l ++ rest) 0 := by
    rw [byteAt_drop hdrop 2]
    rfl
  unfold RawSlab.rdataFromSlab
  rw [h.length]
  simp only [ok_then]
  by_cases hrrsig : l.type = rrsig
  · have hmeta : metaSize l = 1 := if_pos hrrsig
    have hsize : (g.rr.body l).length = g.rr.data.length + 1 := by rw [length_body, hmeta]
    have hmark : byteAt slab (cur + 2) = .ok (if l.fixed then g.ord.headD 0 else g.rr.mark) := by
      rw [hthird]
      have hord := h.ord
      cases hfixed : l.fixed with
      | true =>
        obtain ⟨a, b, hab⟩ := length_eq_two.1 hord
        rw [hab]
        rfl
      | false =>
        unfold Record.body
        rw [if_pos hrrsig]
        rfl
    have hbase : (if l.fixed = true then cur + 3 + 2 else cur + 3) = cur + headerSize l + metaSize l := by
      unfold headerSize
      split <;> omega
    have hend : cur + headerSize l + metaSize l + g.rr.data.length = cur + recordSize l g.rr := by
      unfold recordSize
      omega
    rw [if_pos hrrsig, hmark]
    simp only [ok_then]
    rw [hsize, decrement_succ (by omega)]
    show Except.ok _ = Except.ok _
    rw [hbase, hend]
    unfold seenOffline
    rw [if_pos hrrsig]
  have hmeta : metaSize l = 0 := if_neg hrrsig
  have hsize : (g.rr.body l).length = g.rr.data.length := by rw [length_body, hmeta, Nat.add_zero]
  have hbase : (if l.fixed = true then cur + 2 + 2 else cur + 2) = cur + headerSize l + metaSize l := by
    unfold headerSize
    split <;> omega
  have hend : cur + headerSize l + metaSize l + g.rr.data.length = cur + recordSize l g.rr := by
    unfold recordSize
    omega
  rw [if_neg hrrsig, hsize]
  show Except.ok _ = Except.ok _
  rw [hbase, hend]
  unfold seenOffline
  rw [if_neg hrrsig]

theorem At.dataOf (h : At l slab cur g rest) (offline : Bool) :
    dataOf slab ⟨cur + headerSize l + metaSize l, g.rr.data.length, offline⟩ = .ok g.rr.data := by
  unfold RawSlab.dataOf
  rw [h.data]
  exact bytesAt_append rfl

theorem At.current (h : At l slab cur g rest) (left : ℕ) : current l slab ⟨left, cur⟩ =
    .ok ⟨cur + headerSize l + metaSize l, g.rr.data.length, g.rr.offline l⟩ := by
  have hbody := h.body_le
  rw [length_body] at hbody
  unfold RawSlab.current
  simp only [h.length, ok_then]
  by_cases hrrsig : l.type = rrsig
  · have hmeta : metaSize l = 1 := if_pos hrrsig
    have hsize : (g.rr.body l).length = g.rr.data.length + 1 := by rw [length_body, hmeta]
    have hmark : byteAt slab (cur + headerSize l) = .ok g.rr.mark := by
      have hfirst := byteAt_drop h.body 0
      rw [Nat.add_zero] at hfirst
      rw [hfirst]
      unfold Record.body
      rw [if_pos hrrsig]
      rfl
    rw [if_pos hrrsig, hmark]
    simp only [ok_then]
    rw [hsize, decrement_succ (by omega), hmeta]
    unfold Record.offline
    rw [if_pos hrrsig]
    rfl
  have hmeta : metaSize l = 0 := if_neg hrrsig
  have hsize : (g.rr.body l).length = g.rr.data.length := by rw [length_body, hmeta, Nat.add_zero]
  rw [if_neg hrrsig, hsize, hmeta]
  unfold Record.offline
  rw [if_neg hrrsig]
  rfl

end Reading

/-! ### Reading all records -/

section Runs

variable {l : Layout} {slab : Bytes} {cur : ℕ}

/-- The records from `cur` to the end of the slab. -/
structure Run (l : Layout) (slab : Bytes) (cur : ℕ) (gs : List Draft) : Prop where
  drop : slab.drop cur = records l gs
  ord : ∀ g ∈ gs, g.ord.length = 2
  body_le : ∀ g ∈ gs, (g.rr.body l).length ≤ 0xffff

theorem Run.head {g : Draft} (h : Run l slab cur (g :: gs)) : At l slab cur g (records l gs) :=
  ⟨h.drop, h.ord g mem_cons_self, h.body_le g mem_cons_self⟩

theorem Run.tail {g : Draft} (h : Run l slab cur (g :: gs)) : Run l slab (cur + recordSize l g.rr) gs :=
  ⟨h.head.skip, fun x hx => h.ord x (mem_cons_of_mem _ hx), fun x hx => h.body_le x (mem_cons_of_mem _ hx)⟩

theorem Run.sizeLoop (h : Run l slab cur gs) :
    sizeLoop l slab gs.length cur = .ok (cur + recordsSize l (gs.map Draft.rr)) := by
  induction gs generalizing cur with
  | nil => rfl
  | cons g gs ih =>
    have hnext : cur + (g.rr.body l).length + headerSize l = cur + recordSize l g.rr := by
      unfold recordSize
      omega
    rw [length_cons, RawSlab.sizeLoop, h.head.length, ok_then, hnext, ih h.tail, map_cons, recordsSize_cons, Nat.add_assoc]

/-- The storage for the records, with their places in the offset table. -/
def storageSize (l : Layout) (rs : List Record) : ℕ := (rs.map (fun r => storage l r.data.length)).sum

theorem storageSize_eq (l : Layout) (rs : List Record) : storageSize l rs = tableSize l rs.length + recordsSize l rs := by
  unfold storageSize recordsSize tableSize
  induction rs with
  | nil => simp
  | cons r rs ih =>
    rw [map_cons, sum_cons, ih, map_cons, sum_cons, length_cons]
    unfold storage recordSize headerSize
    rw [length_body]
    split <;> omega

theorem Run.olengthLoop (h : Run l slab cur gs) :
    olengthLoop l slab gs.length cur = .ok (storageSize l (gs.map Draft.rr)) := by
  induction gs generalizing cur with
  | nil => rfl
  | cons g gs ih =>
    have hnext : cur + (g.rr.body l).length + headerSize l = cur + recordSize l g.rr := by
      unfold recordSize
      omega
    have hstorage : (if l.fixed = true then (g.rr.body l).length + 8 else (g.rr.body l).length + 2) = storage l g.rr.data.length := by
      unfold storage
      rw [length_body]
      split <;> omega
    rw [length_cons, RawSlab.olengthLoop, h.head.length, ok_then, hnext, ih h.tail, ok_then, hstorage]
    rfl

/-- The records that `rdata` is compared with in a subtraction. -/
def Matches (l : Layout) (rdata : Bytes) (r : Record) : Bool := l.ops.compare l.type rdata r.data == .eq

theorem Run.matchLoop (h : Run l slab cur gs) (rdata : Bytes) :
    matchLoop l slab rdata gs.length cur = .ok (gs.any (fun g => Matches l rdata g.rr)) := by
  induction gs generalizing cur with
  | nil => rfl
  | cons g gs ih =>
    rw [length_cons, RawSlab.matchLoop, h.head.rdataFromSlab, ok_then]
    simp only [h.head.dataOf, ok_then, any_cons]
    by_cases heq : l.ops.compare l.type rdata g.rr.data = .eq
    · have hmatch : Matches l rdata g.rr = true := beq_iff_eq.2 heq
      rw [if_pos heq, hmatch, Bool.true_or]
      rfl
    · have hmatch : Matches l rdata g.rr = false := beq_eq_false_iff_ne.2 heq
      rw [if_neg heq, ih h.tail, hmatch, Bool.false_or]

/-- The records are in strictly rising order. -/
def Rising (l : Layout) (gs : List Draft) : Prop := gs.Pairwise (fun a b => l.ops.compare l.type a.rr.data b.rr.data = .lt)

variable [Std.TransCmp (l.ops.compare l.type)]

/-- The search that stops at the first greater record finds what is there. -/
theorem Run.inSlabLoop (h : Run l slab cur gs) (hrising : Rising l gs) (rdata : Bytes) :
    inSlabLoop l slab rdata gs.length cur = .ok (gs.any (fun g => Matches l rdata g.rr)) := by
  induction gs generalizing cur with
  | nil => rfl
  | cons g gs ih =>
    obtain ⟨hfirst, hrest⟩ := pairwise_cons.1 hrising
    rw [length_cons, RawSlab.inSlabLoop, h.head.rdataFromSlab, ok_then]
    simp only [h.head.dataOf, ok_then, any_cons]
    have hswap : l.ops.compare l.type rdata g.rr.data = (l.ops.compare l.type g.rr.data rdata).swap := Std.OrientedCmp.eq_swap
    cases hcompare : l.ops.compare l.type g.rr.data rdata with
    | eq =>
      have hmatch : Matches l rdata g.rr = true := by
        unfold Matches
        rw [hswap, hcompare]
        rfl
      rw [hmatch, Bool.true_or]
      rfl
    | lt =>
      have hmatch : Matches l rdata g.rr = false := by
        unfold Matches
        rw [hswap, hcompare]
        rfl
      rw [hmatch, Bool.false_or]
      exact ih h.tail hrest
    | gt =>
      have hnone : (g :: gs).any (fun g => Matches l rdata g.rr) = false := by
        rw [any_eq_false]
        intro x hx
        have hlt : l.ops.compare l.type rdata g.rr.data = .lt := by rw [hswap, hcompare]; rfl
        have hless : l.ops.compare l.type rdata x.rr.data = .lt := by
          obtain rfl | hx := mem_cons.1 hx
          · exact hlt
          · exact Std.TransCmp.lt_trans hlt (hfirst x hx)
        unfold Matches
        rw [hless]
        decide
      rw [any_cons] at hnone
      rw [hnone]
      rfl

end Runs

/-! ### Well-formed slabs -/

section WellFormedSlabs

variable {l : Layout} {reservelen : ℕ} {slab : Bytes} {rs : List Stored}

theorem ord_draft (rs : List Stored) : ∀ g ∈ rs.map Stored.draft, g.ord.length = 2 := by
  intro g hg
  obtain ⟨s, -, rfl⟩ := mem_map.1 hg
  rfl

theorem map_rr_draft (rs : List Stored) : (rs.map Stored.draft).map Draft.rr = rs.map Stored.rr := by
  rw [map_map]
  rfl

theorem WellFormed.rising (h : WellFormed l reservelen slab rs) : Rising l (rs.map Stored.draft) :=
  pairwise_map.2 h.sorted

theorem WellFormed.drop (h : WellFormed l reservelen slab rs) :
    slab.drop reservelen = uint16Bytes rs.length ++ ((table l rs).flatten ++ records l (rs.map Stored.draft)) := by
  obtain ⟨reserve, hlen, hslab⟩ := h.bytes
  rw [hslab, ← hlen]
  unfold image
  rw [drop_left, length_map]

theorem WellFormed.count (h : WellFormed l reservelen slab rs) : peek16 slab reservelen = .ok rs.length :=
  peek16_drop h.count_le h.drop

/-- The records of a slab. -/
theorem WellFormed.run (h : WellFormed l reservelen slab rs) :
    Run l slab (reservelen + 2 + tableSize l rs.length) (rs.map Stored.draft) := by
  refine ⟨?_, ord_draft rs, fun g hg => ?_⟩
  · have hdrop := h.drop
    rw [← append_assoc] at hdrop
    have hlen : (uint16Bytes rs.length ++ (table l rs).flatten).length = 2 + tableSize l rs.length := by
      rw [length_append, length_table, length_uint16Bytes]
    rw [Nat.add_assoc, ← drop_drop, hdrop, ← hlen, drop_left]
  · obtain ⟨s, hs, rfl⟩ := mem_map.1 hg
    exact h.body_le s hs

theorem WellFormed.length (h : WellFormed l reservelen slab rs) :
    slab.length = reservelen + 2 + storageSize l (rs.map Stored.rr) := by
  obtain ⟨reserve, hlen, hslab⟩ := h.bytes
  rw [hslab, storageSize_eq, length_map, ← map_rr_draft, ← length_records (ord_draft rs), ← length_table]
  unfold image
  rw [length_append, length_append, length_append, length_uint16Bytes, hlen]
  omega

theorem WellFormed.size (h : WellFormed l reservelen slab rs) : size l slab reservelen = .ok slab.length := by
  have hrun := h.run.sizeLoop
  rw [length_map, map_rr_draft] at hrun
  have hlen := h.length
  rw [storageSize_eq, length_map] at hlen
  have hsum : reservelen + 2 + tableSize l rs.length + recordsSize l (rs.map Stored.rr) = slab.length := by omega
  unfold RawSlab.size
  rw [h.count]
  simp only [ok_then, hrun]
  rw [hsum]
  exact congrArg Except.ok (Nat.mod_eq_of_lt h.length_lt)

/-- Whether a slab has a record that compares equal. -/
def Has (l : Layout) (rs : List Stored) (rdata : Bytes) : Bool := rs.any (fun s => Matches l rdata s.rr)

theorem WellFormed.rdataInSlab [Std.TransCmp (l.ops.compare l.type)] (h : WellFormed l reservelen slab rs) (rdata : Bytes) :
    rdataInSlab l slab reservelen rdata = .ok (Has l rs rdata) := by
  have hloop := h.run.inSlabLoop h.rising rdata
  rw [length_map, any_map] at hloop
  unfold RawSlab.rdataInSlab
  rw [h.count]
  simp only [ok_then, hloop]
  rfl

end WellFormedSlabs

end Bind9.RawSlab
