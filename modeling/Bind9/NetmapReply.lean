import Bind9.Netmap

/-! # Where replies go

Runs of `netmap_recv` and `netmap_send` in any order.  A `World` is the static variables of
`dns_util.c` together with the queries accepted and not yet answered, and the frames put into
TX slots with the query each of them answers.  A receive works on arbitrary RX rings; a send
answers one of the pending queries with a payload that carries its ID.

The association of replies with queries is kept in the table only, under the ID the client
chose.  `replies_addressed` shows that replies are addressed right as long as no query arrives
while the table is full, or while an entry in use holds its ID for another address.  Without
that they are not (`reply_crossed`). -/

namespace Bind9.Netmap

open List
open Option

structure World where
  st : State
  pending : List Pkt
  placed : List (Pkt × Pkt)

def World.init : World := ⟨.init, [], []⟩

inductive Event where
  | recv (rings : List Ring) (buffLen : ℕ)
  | send (i : ℕ) (payload : List UInt8) (rings : List Ring)

/-- The message given to `netmap_recv`. -/
def recvMsg (buffLen : ℕ) : IoMsg := ⟨[], buffLen, 0, 0, 0, 0, 0⟩

/-- The message given to `netmap_send` for a reply to `q`. -/
def replyMsg (q : Pkt) (payload : List UInt8) : IoMsg :=
  ⟨payload, payload.length, 0, 0, q.get32 offSaddr, 0, q.get16 offSource⟩

/-- The payload starts with the ID of the query. -/
def CarriesId (q : Pkt) (payload : List UInt8) : Prop :=
  2 ≤ payload.length ∧
    (payload.getD 0 0).toNat + 256 * (payload.getD 1 0).toNat = q.get16 offQuery

instance (q : Pkt) (payload : List UInt8) : Decidable (CarriesId q payload) :=
  inferInstanceAs (Decidable (_ ∧ _))

/-- One step; `none` when the process dies.  A send that answers no pending query is not a step
of the system and changes nothing. -/
def step (w : World) : Event → Option World
  | .recv rings buffLen =>
    match recvFromRing w.st (recvMsg buffLen) rings with
    | none => none
    | some (st, _, accepted) => some { w with st := st, pending := accepted.toList ++ w.pending }
  | .send i payload rings =>
    match w.pending[i]? with
    | none => some w
    | some q =>
      if CarriesId q payload then
        match sendToRing w.st (replyMsg q payload) rings with
        | none => none
        | some (st, _, none) => some { w with st := st }
        | some (st, _, some frame) =>
          some ⟨st, w.pending.eraseIdx i, (q, frame) :: w.placed⟩
      else some w

/-- The frame goes back to where the query came from. -/
def ReplyTo (q frame : Pkt) : Prop :=
  frame.bytes offHDest 6 = q.bytes offHSource 6 ∧
    frame.bytes offHSource 6 = q.bytes offHDest 6 ∧
    frame.get32 offSaddr = q.get32 offDaddr ∧ frame.get16 offSource = q.get16 offDest

instance (q frame : Pkt) : Decidable (ReplyTo q frame) := inferInstanceAs (Decidable (_ ∧ _))

/-- A query may be accepted: an entry is free, and an entry in use under the same ID holds the
same addresses. -/
def RecvOk (s : State) (q : Pkt) : Prop :=
  (∃ e ∈ s.macaddrMap, e.dirty = false) ∧
    ∀ e ∈ s.macaddrMap, e.dirty = true → e.qid = q.get16 offQuery → e = entryOf q

/-- The condition on a step: for a receive that its query may be accepted, for a send that the
reply fits into `check_buf` and the slot. -/
def EventOk (w : World) : Event → Prop
  | .recv rings buffLen => ∀ st io q,
      recvFromRing w.st (recvMsg buffLen) rings = some (st, io, some q) → RecvOk w.st q
  | .send _ payload rings =>
    payload.length ≤ 492 ∧ ∀ r ∈ rings, 42 + payload.length ≤ r.bufSize

/-- The states reached by steps that meet the condition. -/
inductive Run : World → Prop
  | init : Run .init
  | step {w w' : World} {ev : Event} : Run w → EventOk w ev → step w ev = some w' → Run w'

/-! ### Packet memory -/

variable {o i v : ℕ} {bs : List UInt8}

theorem Pkt.put_out (p : Pkt) (h : i < o ∨ o + bs.length ≤ i) : p.put o bs i = p i := by
  unfold Pkt.put
  rw [if_neg (by omega)]

theorem Pkt.put_in (p : Pkt) (o : ℕ) (h : i < bs.length) : p.put o bs (o + i) = bs.getD i 0 := by
  unfold Pkt.put
  rw [if_pos (by omega), Nat.add_sub_cancel_left]

variable {p p' : Pkt}

theorem Pkt.bytes_congr {n : ℕ} (h : ∀ i < n, p (o + i) = p' (o + i)) : p.bytes o n = p'.bytes o n := by
  unfold Pkt.bytes
  apply map_congr_left
  intro i hi
  exact h i (mem_range.1 hi)

theorem Pkt.get16_congr (h : ∀ i < 2, p (o + i) = p' (o + i)) : p.get16 o = p'.get16 o := by
  unfold Pkt.get16
  rw [h 1 (by omega), show p o = p' o from h 0 (by omega)]

theorem Pkt.get32_congr (h : ∀ i < 4, p (o + i) = p' (o + i)) : p.get32 o = p'.get32 o := by
  unfold Pkt.get32
  have hlo : p.get16 o = p'.get16 o := Pkt.get16_congr (fun i hi => h i (by omega))
  have hhi : p.get16 (o + 2) = p'.get16 (o + 2) := by
    apply Pkt.get16_congr
    intro i hi
    rw [Nat.add_assoc]
    exact h (2 + i) (by omega)
  rw [hlo, hhi]

theorem Pkt.bytes_put (p : Pkt) (o : ℕ) (bs : List UInt8) : (p.put o bs).bytes o bs.length = bs := by
  unfold Pkt.bytes
  apply ext_getElem (by simp)
  intro i h1 h2
  simp only [getElem_map, getElem_range]
  rw [Pkt.put_in p o h2, getD_eq_getElem?_getD, getElem?_eq_getElem h2]
  rfl

theorem Pkt.get16_put (p : Pkt) (o : ℕ) (h : 2 ≤ bs.length) :
    (p.put o bs).get16 o = (bs.getD 0 0).toNat + 256 * (bs.getD 1 0).toNat := by
  unfold Pkt.get16
  rw [Pkt.put_in p o (by omega : 1 < bs.length)]
  rw [show p.put o bs o = bs.getD 0 0 from Pkt.put_in p o (by omega : 0 < bs.length)]

theorem Pkt.get16_lt (p : Pkt) (o : ℕ) : p.get16 o < 65536 := by
  have h0 := (p o).toNat_lt
  have h1 := (p (o + 1)).toNat_lt
  unfold Pkt.get16
  omega

theorem Pkt.get16_put16 (p : Pkt) (o : ℕ) (hv : v < 65536) : (p.put16 o v).get16 o = v := by
  unfold Pkt.put16
  rw [Pkt.get16_put _ _ (by simp [bytes16])]
  simp only [bytes16, getD_cons_zero, getD_cons_succ, UInt8.toNat_ofNat']
  omega

theorem Pkt.get32_put32 (p : Pkt) (o : ℕ) (hv : v < 65536 * 65536) : (p.put32 o v).get32 o = v := by
  unfold Pkt.get32 Pkt.put32
  rw [Pkt.get16_put _ _ (by simp [bytes16])]
  unfold Pkt.get16
  rw [Pkt.put_in p o (by simp [bytes16] : 2 < _), Nat.add_assoc,
    Pkt.put_in p o (by simp [bytes16] : 2 + 1 < _)]
  simp only [bytes16, cons_append, nil_append, getD_cons_zero,
    getD_cons_succ, UInt8.toNat_ofNat']
  omega

/-- The offsets that carry the addresses looked up in the table. -/
def AddrOffset (i : ℕ) : Prop := i < 12 ∨ (26 ≤ i ∧ i < 30) ∨ (34 ≤ i ∧ i < 36)

theorem Pkt.put16_out (p : Pkt) (h : i < o ∨ o + 2 ≤ i) : p.put16 o v i = p i :=
  Pkt.put_out p h

theorem Pkt.put32_out (p : Pkt) (h : i < o ∨ o + 4 ≤ i) : p.put32 o v i = p i :=
  Pkt.put_out p h

theorem fillIp_addr (p : Pkt) (n daddr id : ℕ) (h : AddrOffset i) : fillIp p n daddr id i = p i := by
  unfold AddrOffset at h
  unfold fillIp
  dsimp only [offDaddr, offTotLen, offIpId, offIpCheck]
  rw [Pkt.put16_out _ (by omega), Pkt.put16_out _ (by omega), Pkt.put16_out _ (by omega),
    Pkt.put16_out _ (by omega), Pkt.put32_out _ (by omega)]

theorem fillUdp_addr (p : Pkt) (n dest : ℕ) (h : AddrOffset i) : fillUdp p n dest i = p i := by
  unfold AddrOffset at h
  unfold fillUdp
  dsimp only [offDest, offUdpCheck, offUdpLen]
  rw [Pkt.put16_out _ (by omega), Pkt.put16_out _ (by omega), Pkt.put16_out _ (by omega),
    Pkt.put16_out _ (by omega)]

/-! ### The table -/

def MacEntry.used (e : MacEntry) : MacEntry := { e with dirty := true }

/-- In front of an entry in use no entry holds its ID for other addresses. -/
def Shadowed (map : List MacEntry) : Prop :=
  map.Pairwise (fun a b => b.dirty = true → a.qid = b.qid → a.used = b)

variable {e : MacEntry}

/-- With a free entry, the new one takes the place of the first free one. -/
theorem addSlot_split : ∀ {map : List MacEntry}, (∃ m ∈ map, m.dirty = false) →
    ∃ pre m post, map = pre ++ m :: post ∧ (∀ a ∈ pre, a.dirty = true) ∧ m.dirty = false ∧
      addSlot e map = pre ++ e :: post
  | [], h => by simp at h
  | [m], h => by
    obtain ⟨m', hm, hd⟩ := h
    rw [mem_singleton.1 hm] at hd
    exact ⟨[], m, [], rfl, by simp, hd, rfl⟩
  | m :: m' :: ms, h => by
    unfold addSlot
    cases hd : m.dirty with
    | false => exact ⟨[], m, m' :: ms, rfl, by simp, hd, by simp⟩
    | true =>
      have h' : ∃ a ∈ m' :: ms, a.dirty = false := by
        obtain ⟨a, ha, had⟩ := h
        rcases mem_cons.1 ha with rfl | ha
        · rw [hd] at had; cases had
        · exact ⟨a, ha, had⟩
      obtain ⟨pre, a, post, he, hpre, ha, hadd⟩ := addSlot_split h'
      refine ⟨m :: pre, a, post, by rw [he]; rfl, ?_, ha, by simp [hadd]⟩
      intro b hb
      rcases mem_cons.1 hb with rfl | hb
      · exact hd
      · exact hpre b hb

/-- A lookup returns the first entry with the ID. -/
theorem getSlot_split {qid : ℕ} : ∀ {map : List MacEntry}, (∃ m ∈ map, m.qid = qid) →
    ∃ pre m post, map = pre ++ m :: post ∧ (∀ a ∈ pre, a.qid ≠ qid) ∧ m.qid = qid ∧
      getSlot qid map = some (m, pre ++ { m with dirty := false } :: post)
  | [], h => by simp at h
  | m :: ms, h => by
    unfold getSlot
    by_cases hq : m.qid = qid
    · exact ⟨[], m, ms, rfl, by simp, hq, by simp [hq]⟩
    have h' : ∃ a ∈ ms, a.qid = qid := by
      obtain ⟨a, ha, haq⟩ := h
      rcases mem_cons.1 ha with rfl | ha
      · exact absurd haq hq
      · exact ⟨a, ha, haq⟩
    obtain ⟨pre, a, post, he, hpre, ha, hget⟩ := getSlot_split h'
    refine ⟨m :: pre, a, post, by rw [he]; rfl, ?_, ha, by simp [hq, hget]⟩
    intro b hb
    rcases mem_cons.1 hb with rfl | hb
    · exact hq
    · exact hpre b hb

theorem Shadowed.add {map pre post : List MacEntry} {m e : MacEntry} (h : Shadowed map)
    (hmap : map = pre ++ m :: post) (hpre : ∀ a ∈ pre, a.dirty = true)
    (hok : ∀ a ∈ map, a.dirty = true → a.qid = e.qid → a = e) (he : e.dirty = true) : Shadowed (pre ++ e :: post) := by
  have hused : e.used = e := by unfold MacEntry.used; rw [← he]
  subst hmap
  unfold Shadowed at h ⊢
  rw [pairwise_append] at h ⊢
  obtain ⟨h1, h2, h3⟩ := h
  obtain ⟨-, h2⟩ := pairwise_cons.1 h2
  refine ⟨h1, pairwise_cons.2 ⟨?_, h2⟩, ?_⟩
  · intro b hb hbd hq
    rw [hused]
    exact (hok b (by simp [hb]) hbd hq.symm).symm
  · intro a ha b hb hbd hq
    rcases mem_cons.1 hb with rfl | hb
    · -- an entry in front is in use, so it holds the same addresses
      rw [hok a (by simp [ha]) (hpre a ha) hq, hused]
    · exact h3 a ha b (by simp [hb]) hbd hq

theorem Shadowed.release {map pre post : List MacEntry} {m : MacEntry} (h : Shadowed map)
    (hmap : map = pre ++ m :: post) : Shadowed (pre ++ { m with dirty := false } :: post) := by
  subst hmap
  unfold Shadowed at h ⊢
  rw [pairwise_append] at h ⊢
  obtain ⟨h1, h2, h3⟩ := h
  obtain ⟨hm, h2⟩ := pairwise_cons.1 h2
  refine ⟨h1, pairwise_cons.2 ⟨fun b hb => hm b hb, h2⟩, ?_⟩
  intro a ha b hb hbd hq
  rcases mem_cons.1 hb with rfl | hb
  · simp at hbd
  · exact h3 a ha b (by simp [hb]) hbd hq

/-- The table as `netmap_add_macaddr` finds it. -/
def State.table (s : State) : List MacEntry :=
  if s.macaddrMapInited then s.macaddrMap else replicate MAC_ADDR_MAP_ITEMS .zero

theorem parseAddr_map (p : Pkt) (s : State) (io : IoMsg) : (parseAddr p s io).1.macaddrMap = addSlot (entryOf p) s.table ∧
      (parseAddr p s io).1.macaddrMapInited = true := by
  unfold parseAddr addMacaddr State.table
  cases hm : s.macaddrMapInited <;> cases hh : s.pktHeaderInited <;> simp [hm]

theorem recvLoop_map (s : State) (io : IoMsg) : ∀ (k : ℕ) (r : Ring) (j m : ℕ) {v : Recv},
    recvLoop s io k r j m = some v →
      (v.accepted = none ∧ v.st = s) ∨ ∃ q, v.accepted = some q ∧
        v.st.macaddrMap = addSlot (entryOf q) s.table ∧ v.st.macaddrMapInited = true
  | 0, r, j, m, v, h => by
    cases h
    exact .inl ⟨rfl, rfl⟩
  | k + 1, r, j, m, v, h => by
    unfold recvLoop at h
    dsimp only at h
    split_ifs at h with h1 h2 h3
    · cases h
      obtain ⟨hmap, hin⟩ := parseAddr_map (r.buf (r.slot j).bufIdx) s io
      exact .inr ⟨_, rfl, hmap, hin⟩
    · exact recvLoop_map s io k _ _ _ h

theorem recvFromRing_map (s : State) (io : IoMsg) : ∀ (rings : List Ring) {s' : State}
    {io' : IoMsg} {acc : Option Pkt}, recvFromRing s io rings = some (s', io', acc) →
      (acc = none ∧ s' = s) ∨ ∃ q, acc = some q ∧
        s'.macaddrMap = addSlot (entryOf q) s.table ∧ s'.macaddrMapInited = true
  | [], _, _, _, h => by
    cases h
    exact .inl ⟨rfl, rfl⟩
  | r :: rs, s', io', acc, h => by
    unfold recvFromRing at h
    split_ifs at h
    · exact recvFromRing_map s io rs h
    · obtain ⟨v, hv, he⟩ := map_eq_some_iff.1 h
      cases he
      exact recvLoop_map s io _ _ _ _ hv

/-! ### A reply -/

variable {s : State}

theorem buildPktHeader_reply {p : Pkt} {n : ℕ} (io : IoMsg) {map : List MacEntry} (hn : n ≤ 534)
    (hget : getSlot (p.get16 offQuery) s.macaddrMap = some (e, map)) {q : Pkt} (he : e.used = entryOf q) :
    ∃ frame s', buildPktHeader p n io s = some (frame, s') ∧ ReplyTo q frame ∧
      s'.macaddrMap = map ∧ s'.macaddrMapInited = s.macaddrMapInited := by
  have hsmac : e.smac = q.bytes offHDest 6 := congrArg MacEntry.smac he
  have hdmac : e.dmac = q.bytes offHSource 6 := congrArg MacEntry.dmac he
  have hsaddr : e.saddr = q.get32 offDaddr := congrArg MacEntry.saddr he
  have hsource : e.source = q.get16 offDest := congrArg MacEntry.source he
  have hslen : e.smac.length = 6 := by rw [hsmac]; simp [Pkt.bytes]
  have hdlen : e.dmac.length = 6 := by rw [hdmac]; simp [Pkt.bytes]
  have h32 : e.saddr < 65536 * 65536 := by
    rw [hsaddr]
    unfold Pkt.get32
    have h1 := Pkt.get16_lt q offDaddr
    have h2 := Pkt.get16_lt q (offDaddr + 2)
    omega
  have h16 : e.source < 65536 := by rw [hsource]; exact Pkt.get16_lt _ _
  unfold buildPktHeader fillAddrs
  rw [hget]
  dsimp only
  rw [if_neg (by omega)]
  refine ⟨_, _, rfl, ?_, rfl, rfl⟩
  generalize hp : (((p.put offHSource e.smac).put offHDest e.dmac).put32 offSaddr e.saddr).put16
    offSource e.source = p1
  have hout : ∀ {i}, AddrOffset i → fillUdp (fillIp p1 n io.daddr ((s.ipIdNext + 1) % 65536)) n
      io.dest i = p1 i := fun hi => by rw [fillUdp_addr _ _ _ hi, fillIp_addr _ _ _ _ hi]
  refine ⟨?_, ?_, ?_, ?_⟩
  · rw [← hdmac, ← Pkt.bytes_put (p.put offHSource e.smac) offHDest e.dmac, hdlen]
    apply Pkt.bytes_congr
    intro i hi
    rw [hout (.inl (by unfold offHDest; omega)), ← hp,
      Pkt.put16_out _ (by unfold offHDest offSource; omega),
      Pkt.put32_out _ (by unfold offHDest offSaddr; omega)]
  · rw [← hsmac, ← Pkt.bytes_put p offHSource e.smac, hslen]
    apply Pkt.bytes_congr
    intro i hi
    rw [hout (.inl (by unfold offHSource; omega)), ← hp,
      Pkt.put16_out _ (by unfold offHSource offSource; omega),
      Pkt.put32_out _ (by unfold offHSource offSaddr; omega),
      Pkt.put_out _ (by unfold offHSource offHDest; omega)]
  · rw [← hsaddr, ← Pkt.get32_put32 ((p.put offHSource e.smac).put offHDest e.dmac) offSaddr h32]
    apply Pkt.get32_congr
    intro i hi
    rw [hout (.inr (.inl (by unfold offSaddr; omega))), ← hp,
      Pkt.put16_out _ (by unfold offSource offSaddr; omega)]
  · rw [← hsource, ← Pkt.get16_put16 (((p.put offHSource e.smac).put offHDest e.dmac).put32
      offSaddr e.saddr) offSource h16]
    apply Pkt.get16_congr
    intro i hi
    rw [hout (.inr (.inr (by unfold offSource; omega))), ← hp]

theorem sendToRing_reply {q : Pkt} {payload : List UInt8}
    {map : List MacEntry} (hid : CarriesId q payload) (hlen : payload.length ≤ 492)
    (hget : getSlot (q.get16 offQuery) s.macaddrMap = some (e, map))
    (he : e.used = entryOf q) : ∀ rings : List Ring,
      (∀ r ∈ rings, 42 + payload.length ≤ r.bufSize) →
      sendToRing s (replyMsg q payload) rings = some (s, replyMsg q payload, none) ∨
        ∃ s' io' frame, sendToRing s (replyMsg q payload) rings = some (s', io', some frame) ∧
          ReplyTo q frame ∧ s'.macaddrMap = map ∧ s'.macaddrMapInited = s.macaddrMapInited
  | [], _ => .inl rfl
  | r :: rs, hr => by
    unfold sendToRing
    split_ifs with hav
    · exact sendToRing_reply hid hlen hget he rs (fun x hx => hr x (by simp [hx]))
    · right
      have hsize := hr r (by simp)
      have hmin : min r.avail 512 ≠ 0 := by omega
      have hbl : (replyMsg q payload).buffLen = payload.length := rfl
      have hmod : (payload.length + 42) % 65536 = payload.length + 42 :=
        Nat.mod_eq_of_lt (by omega)
      unfold processSendRing
      rw [if_neg hmin]
      dsimp only
      rw [hbl, if_neg (by omega), hmod]
      generalize hp : (Pkt.put (Pkt.put (r.buf (r.slot r.cur).bufIdx) 0 s.pktHeader) 42
        ((replyMsg q payload).buff.take payload.length)) = p
      have hpq : p.get16 offQuery = q.get16 offQuery := by
        rw [← hp]
        have htake : (replyMsg q payload).buff.take payload.length = payload := take_length
        rw [htake]
        exact (Pkt.get16_put _ 42 hid.1).trans hid.2
      rw [← hpq] at hget
      obtain ⟨frame, s', hb, hrep, hmap, hin⟩ :=
        buildPktHeader_reply (n := payload.length + 42) (replyMsg q payload) (by omega) hget he
      rw [hb]
      exact ⟨_, _, _, rfl, hrep, hmap, hin⟩

/-! ### The invariant of a run -/

/-- Every pending query has an entry in use of its own, and lookups cannot miss it. -/
structure Inv (w : World) : Prop where
  fresh : w.st.table = w.st.macaddrMap
  shadowed : Shadowed w.st.macaddrMap
  counts : ∀ k : MacEntry, k.dirty = true →
    w.pending.countP (fun q => decide (entryOf q = k)) ≤ w.st.macaddrMap.count k
  placed : ∀ p ∈ w.placed, ReplyTo p.1 p.2

theorem init_inv : Inv .init := by
  constructor
  · rfl
  · unfold Shadowed World.init State.init
    apply pairwise_replicate.2
    simp [MacEntry.zero]
  · simp [World.init]
  · simp [World.init]

theorem State.table_inited (h : s.macaddrMapInited = true) : s.table = s.macaddrMap := by
  unfold table; rw [if_pos h]

variable {w : World}

theorem recv_inv {rings : List Ring} {buffLen : ℕ} {w' : World} (h : Inv w)
    (hok : EventOk w (.recv rings buffLen)) (hs : step w (.recv rings buffLen) = some w') : Inv w' := by
  unfold step at hs
  cases hr : recvFromRing w.st (recvMsg buffLen) rings with
  | none => simp [hr] at hs
  | some v =>
    obtain ⟨st, io, acc⟩ := v
    simp only [hr, Option.some.injEq] at hs
    subst hs
    rcases recvFromRing_map _ _ _ hr with ⟨rfl, rfl⟩ | ⟨q, rfl, hmap, hin⟩
    · exact ⟨h.fresh, h.shadowed, h.counts, h.placed⟩
    obtain ⟨hfree, hsame⟩ := hok st io q hr
    obtain ⟨pre, m, post, hsplit, hpre, hm, hadd⟩ := addSlot_split (e := entryOf q) hfree
    rw [h.fresh, hadd] at hmap
    refine ⟨State.table_inited hin, ?_, ?_, h.placed⟩
    · rw [hmap]
      exact h.shadowed.add hsplit hpre hsame rfl
    · intro k hk
      have hmk : m ≠ k := by
        rintro rfl
        rw [hm] at hk
        cases hk
      have hc := h.counts k hk
      rw [hmap]
      rw [hsplit] at hc
      simp only [toList, singleton_append, countP_cons, count_append,
        count_cons, decide_eq_true_eq, beq_iff_eq, if_neg hmk] at hc ⊢
      split_ifs <;> omega

theorem getSlot_pending (h : Inv w) {q : Pkt} (hq : q ∈ w.pending) :
    ∃ pre m post, w.st.macaddrMap = pre ++ m :: post ∧ m.used = entryOf q ∧
      getSlot (q.get16 offQuery) w.st.macaddrMap =
        some (m, pre ++ { m with dirty := false } :: post) := by
  have hpos : 0 < w.pending.countP (fun x => decide (entryOf x = entryOf q)) :=
    countP_pos_iff.2 ⟨q, hq, by simp⟩
  have hmem : entryOf q ∈ w.st.macaddrMap :=
    count_pos_iff.1 (lt_of_lt_of_le hpos (h.counts _ rfl))
  have hex : ∃ m ∈ w.st.macaddrMap, m.qid = q.get16 offQuery := ⟨entryOf q, hmem, rfl⟩
  obtain ⟨pre, m, post, hsplit, hpre, hm, hget⟩ := getSlot_split hex
  refine ⟨pre, m, post, hsplit, ?_, hget⟩
  have hsh := h.shadowed
  unfold Shadowed at hsh
  rw [hsplit] at hsh hmem
  rcases mem_append.1 hmem with hin | hin
  · exact absurd rfl (hpre _ hin)
  rcases mem_cons.1 hin with he | hin
  · rw [← he]; rfl
  · exact (pairwise_cons.1 (pairwise_append.1 hsh).2.1).1 _ hin rfl hm

theorem send_inv {payload : List UInt8} {rings : List Ring} (h : Inv w) (hok : EventOk w (.send i payload rings)) :
    ∃ w', step w (.send i payload rings) = some w' ∧ Inv w' := by
  simp only [step]
  cases hi : w.pending[i]? with
  | none => exact ⟨w, rfl, h⟩
  | some q =>
    dsimp only
    split_ifs with hid
    · obtain ⟨pre, m, post, hsplit, hm, hget⟩ := getSlot_pending h (mem_of_getElem? hi)
      rcases sendToRing_reply hid hok.1 hget hm rings hok.2 with hs | ⟨s', io', frame, hs, hrep,
        hmap, hin⟩
      · rw [hs]
        exact ⟨_, rfl, h.fresh, h.shadowed, h.counts, h.placed⟩
      rw [hs]
      refine ⟨_, rfl, ?_, ?_, ?_, ?_⟩
      · -- the table was in use, or else nothing could be pending
        have hfr := h.fresh
        unfold State.table at hfr ⊢
        rw [hin]
        split_ifs at hfr ⊢ with hini
        · rfl
        · rw [← hfr] at hsplit
          have : m ∈ replicate MAC_ADDR_MAP_ITEMS MacEntry.zero := by rw [hsplit]; simp
          rw [hmap, hsplit, eq_of_mem_replicate this]
          rfl
      · rw [hmap]
        exact h.shadowed.release hsplit
      · intro k hk
        have hc := h.counts k hk
        obtain ⟨hlt, he⟩ := List.getElem?_eq_some_iff.1 hi
        have hperm := getElem_cons_eraseIdx_perm hlt
        rw [he] at hperm
        rw [← hperm.countP_eq, hsplit] at hc
        have hrel : { m with dirty := false } ≠ k := by
          rintro rfl
          cases hk
        -- only the entry of the answered query can lose its use
        have hmk : m = k → entryOf q = k := by
          rintro rfl
          rw [← hm]
          unfold MacEntry.used
          rw [← hk]
        rw [hmap]
        simp only [countP_cons, count_append, count_cons, decide_eq_true_eq,
          beq_iff_eq, if_neg hrel] at hc ⊢
        by_cases h1 : entryOf q = k
        · split_ifs at hc <;> omega
        · rw [if_neg h1, if_neg (mt hmk h1)] at hc
          omega
      · intro p hp
        rcases mem_cons.1 hp with rfl | hp
        · exact hrep
        · exact h.placed p hp
    · exact ⟨w, rfl, h⟩

theorem run_inv (h : Run w) : Inv w := by
  induction h with
  | init => exact init_inv
  | @step w w' ev _ hok hs ih =>
    cases ev with
    | recv rings buffLen => exact recv_inv ih hok hs
    | send i payload rings =>
      obtain ⟨w'', hs', hinv⟩ := send_inv ih hok
      rw [hs'] at hs
      exact Option.some.inj hs ▸ hinv

/-- **Reply addressing.**  In every run in which each query is accepted with a free entry in
the table and no other address in use under its ID, and each reply fits, every frame put into
a TX slot goes back to where its query came from, and no send kills the process. -/
theorem replies_addressed {w : World} (h : Run w) : (∀ p ∈ w.placed, ReplyTo p.1 p.2) ∧
      ∀ i payload rings, EventOk w (.send i payload rings) → (step w (.send i payload rings)).isSome := by
  refine ⟨(run_inv h).placed, ?_⟩
  intro i payload rings hok
  obtain ⟨w', hs, -⟩ := send_inv (run_inv h) hok
  rw [hs]
  rfl

/-! ### Two clients with one ID -/

/-- A query with ID `0x1234` (as it stands in the frame) from the host `10.0.0.c` with the MAC
address `02:00:00:00:00:c`. -/
def clientQuery (c : UInt8) : Pkt := fun i =>
  ([2, 0, 0, 0, 0, 1, 2, 0, 0, 0, 0, c, 8, 0, 0x45, 0, 0, 45, 0, 0, 0, 0, 64, 17, 0, 0,
    10, 0, 0, c, 10, 0, 0, 1, 0x80, 0, 0, 53, 0, 25, 0, 0, 0x12, 0x34, 1, 0, 0, 1] :
    List UInt8).getD i 0

/-- A ring with one packet. -/
def oneSlot (p : Pkt) : Ring := ⟨2, 0, 1, fun _ => ⟨2, 59, 0⟩, fun _ => p, 2048⟩

def replyPayload : List UInt8 := [0x12, 0x34, 0x81, 0]

/-- Clients 7 and 9 ask under one ID; client 9 is answered first. -/
def crossedEvents : List Event :=
  [.recv [oneSlot (clientQuery 7)] 512, .recv [oneSlot (clientQuery 9)] 512,
    .send 0 replyPayload [oneSlot (fun _ => 0)]]

/-- All frames of a run are addressed right. -/
def RepliesRight : Option World → Prop
  | none => True
  | some w => ∀ p ∈ w.placed, ReplyTo p.1 p.2

instance (o : Option World) : Decidable (RepliesRight o) :=
  match o with
  | none => .isTrue trivial
  | some w => inferInstanceAs (Decidable (∀ p ∈ w.placed, ReplyTo p.1 p.2))

/-- The reply to client 9 goes to the MAC address of client 7. -/
theorem reply_crossed : ¬ RepliesRight (crossedEvents.foldlM step .init) := by decide

/-- Client 7 alone: one query, one reply. -/
def answeredWorld : World :=
  (step ((step .init (.recv [oneSlot (clientQuery 7)] 512)).get (by decide))
    (.send 0 replyPayload [oneSlot (fun _ => 0)])).get (by decide)

theorem replies_addressed_answeredWorld : answeredWorld.placed.length = 1 ∧ (∀ p ∈ answeredWorld.placed, ReplyTo p.1 p.2) ∧
      ∀ i payload rings, EventOk answeredWorld (.send i payload rings) →
        (step answeredWorld (.send i payload rings)).isSome := by
  have hrecv : EventOk .init (.recv [oneSlot (clientQuery 7)] 512) := by
    intro st io q _
    have hnone : ∀ e ∈ World.init.st.macaddrMap, e.dirty ≠ true := by decide
    exact ⟨by decide, fun e he hd => absurd hd (hnone e he)⟩
  have hsend : ∀ w, EventOk w (.send 0 replyPayload [oneSlot (fun _ => 0)]) := by
    intro w
    refine ⟨by decide, fun r hr => ?_⟩
    rw [mem_singleton.1 hr]
    decide
  refine ⟨by decide, replies_addressed ?_⟩
  apply Run.step (Run.step Run.init hrecv (some_get _).symm) (hsend _)
  exact (some_get _).symm

end Bind9.Netmap
