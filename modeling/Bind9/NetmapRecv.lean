import Bind9.NetmapReply
import Bind9.Region

/-! # What a receive delivers

`process_recv_ring` again, with its accesses to the frame: a load past the length of the slot, a `memcpy` of negative
length and a failed `assert` are faults.  Without a fault the loop is the one of `Bind9.Netmap` (`recvLoopIn_ok`).

`is_dns_query` and `parse_addr` look at fixed places of the frame whatever its length, and the payload is taken to be
everything behind the first 42 bytes.  So a receive is right if and only if each slot that it looks at is long enough for
the fields that are read there and shorter than the caller's buffer, and a datagram that it accepts has neither IP options
nor padding (`recv_delivers_iff`). -/

namespace Bind9.Netmap

open Function

inductive Fault where
  /-- A load past the length of the slot. -/
  | read
  /-- A copy of negative length. -/
  | length
  | assertion
deriving DecidableEq, Repr

/-- An access to `n` bytes at offset `o` of a frame of `len` bytes. -/
def touch (len o n : ℕ) : Except Fault Unit := if o + n ≤ len then .ok () else .error .read

def isDnsQueryIn (p : Pkt) (len : ℕ) : Except Fault Bool := do
  touch len offHProto 2
  if p.get16 offHProto ≠ htons 0x0800 then return false
  touch len offProtocol 1
  if (p offProtocol).toNat ≠ IPPROTO_UDP then return false
  touch len offDest 2
  return p.get16 offDest == htons 53

/-- `parse_addr` with its loads; the header is copied once. -/
def parseAddrIn (p : Pkt) (len : ℕ) (s : State) (io : IoMsg) : Except Fault (State × IoMsg) := do
  touch len offQuery 2
  touch len offSaddr 4
  touch len offDaddr 4
  touch len offSource 2
  touch len offDest 2
  if s.pktHeaderInited = false then touch len 0 42
  touch len offHDest 6
  touch len offHSource 6
  return parseAddr p s io

/-- The loop of `process_recv_ring` with its accesses. -/
def recvLoopIn (s : State) (io : IoMsg) : ℕ → Ring → ℕ → ℕ → Except Fault Recv
  | 0, r, j, m => .ok ⟨{ r with avail := r.avail - m, cur := j }, s, io, m, none⟩
  | k + 1, r, j, m => do
    let rs := r.slot j
    let rxbuf := r.buf rs.bufIdx
    let r' := { r with slot := update r.slot j rs.changed }
    if ¬rs.len < io.buffLen then throw .assertion
    if ← isDnsQueryIn rxbuf rs.len then
      let (s', io') ← parseAddrIn rxbuf rs.len s io
      -- a wrong length is only reported
      if rs.len < 42 then throw .length
      touch rs.len 42 (rs.len - 42)
      let n := rs.len - 42
      return ⟨{ r' with avail := r.avail - (m + 1), cur := r.next j }, s',
        { io' with buff := rxbuf.bytes 42 n ++ io.buff.drop n, n := n }, m + 1, some rxbuf⟩
    else recvLoopIn s io k r' (r.next j) (m + 1)

def processRecvRingIn (s : State) (r : Ring) (limit : ℕ) (io : IoMsg) : Except Fault Recv :=
  recvLoopIn s io (min r.avail limit) r r.cur 0

/-! ### Datagrams -/

/-- The bytes of a slot. -/
structure Frame where
  mem : Pkt
  len : ℕ

def Ring.frame (r : Ring) (j : ℕ) : Frame := ⟨r.buf (r.slot j).bufIdx, (r.slot j).len⟩

namespace Frame

variable (f : Frame)

/-- The length of the IP header. -/
def ihl : ℕ := f.mem.ihl

/-- Where the UDP header starts. -/
def udp : ℕ := 14 + f.ihl

def totLen : ℕ := htons (f.mem.get16 offTotLen)

def udpLen : ℕ := htons (f.mem.get16 (f.udp + 4))

/-- The bytes behind the UDP header, as many as its length field says. -/
def payload : Bytes := f.mem.bytes (f.udp + 8) (f.udpLen - 8)

/-- An IPv4 packet that is not a fragment, with a UDP datagram to port 53; behind it the frame may be padded. -/
structure Datagram : Prop where
  ethertype : f.mem.get16 offHProto = htons 0x0800
  version : (f.mem 14).toNat / 16 = 4
  ihl_le : 20 ≤ f.ihl
  checksum : inCksum (f.mem.bytes 14 f.ihl) = 0
  whole : (f.mem 20).toNat % 64 = 0 ∧ (f.mem 21).toNat = 0
  protocol : (f.mem offProtocol).toNat = IPPROTO_UDP
  totLen_eq : f.totLen = f.ihl + f.udpLen
  udpLen_le : 8 ≤ f.udpLen
  inside : 14 + f.totLen ≤ f.len
  dest : f.mem.get16 (f.udp + 2) = htons 53

end Frame

/-- The message holds the datagram of the frame and its addresses. -/
structure Delivered (f : Frame) (io : IoMsg) : Prop where
  n_eq : io.n = f.udpLen - 8
  buff_eq : io.buff.take io.n = f.payload
  saddr_eq : io.saddr = f.mem.get32 offSaddr
  daddr_eq : io.daddr = f.mem.get32 offDaddr
  source_eq : io.source = f.mem.get16 f.udp
  dest_eq : io.dest = f.mem.get16 (f.udp + 2)

/-- A receive does nothing that it must not, and a datagram that it accepts is delivered; the slot that it accepts is the
last of the `m` that it took. -/
def RecvDelivers (s : State) (r : Ring) (limit : ℕ) (io : IoMsg) : Prop :=
  ∃ v, processRecvRingIn s r limit io = .ok v ∧
    (v.accepted.isSome = true → (r.frame (r.next^[v.m - 1] r.cur)).Datagram →
      Delivered (r.frame (r.next^[v.m - 1] r.cur)) v.io)

/-! ### When a receive is right -/

/-- The slot holds what is read of it: up to the ethertype, up to the protocol of an IPv4 packet, up to the destination
port of a UDP packet without options, and up to the ID of a query. -/
def Frame.Readable (f : Frame) : Prop :=
  14 ≤ f.len ∧ (f.mem.get16 offHProto = htons 0x0800 → 24 ≤ f.len ∧ ((f.mem offProtocol).toNat = IPPROTO_UDP →
    38 ≤ f.len ∧ (f.mem.get16 offDest = htons 53 → 44 ≤ f.len)))

/-- A datagram that is accepted has no IP options and no padding. -/
def Frame.Bare (f : Frame) : Prop := isDnsQuery f.mem = true → f.Datagram → f.ihl = 20 ∧ f.len = 14 + f.totLen

/-- The slots that the loop looks at, up to the first that holds a query. -/
def RecvFits (buffLen : ℕ) (frame : ℕ → Frame) (next : ℕ → ℕ) : ℕ → ℕ → Prop
  | 0, _ => True
  | k + 1, j =>
    (frame j).len < buffLen ∧ (frame j).Readable ∧ (frame j).Bare ∧
      (isDnsQuery (frame j).mem = false → RecvFits buffLen frame next k (next j))

theorem touch_of_le {len o n : ℕ} (h : o + n ≤ len) : touch len o n = .ok () := if_pos h

theorem touch_eq_ok {len o n : ℕ} {u : Unit} (h : touch len o n = .ok u) : o + n ≤ len := by
  unfold touch at h
  split at h
  · assumption
  · cases h

variable {p : Pkt}

theorem isDnsQuery_iff : isDnsQuery p = true ↔
    p.get16 offHProto = htons 0x0800 ∧ (p offProtocol).toNat = IPPROTO_UDP ∧ p.get16 offDest = htons 53 := by
  unfold isDnsQuery
  rw [Bool.and_eq_true, Bool.and_eq_true, beq_iff_eq, beq_iff_eq, beq_iff_eq, and_assoc]

theorem isDnsQueryIn_of_readable {f : Frame} (h : f.Readable) : isDnsQueryIn f.mem f.len = .ok (isDnsQuery f.mem) := by
  obtain ⟨h1, hrest⟩ := h
  unfold isDnsQueryIn
  rw [touch_of_le (show offHProto + 2 ≤ f.len from h1)]
  by_cases hip : f.mem.get16 offHProto = htons 0x0800
  · obtain ⟨h2, hrest⟩ := hrest hip
    rw [touch_of_le (show offProtocol + 1 ≤ f.len from h2)]
    by_cases hudp : (f.mem offProtocol).toNat = IPPROTO_UDP
    · obtain ⟨h3, -⟩ := hrest hudp
      rw [touch_of_le (show offDest + 2 ≤ f.len from h3)]
      have hdest : isDnsQuery f.mem = (f.mem.get16 offDest == htons 53) := by
        unfold isDnsQuery
        rw [hip, hudp, beq_self_eq_true, beq_self_eq_true, Bool.true_and, Bool.true_and]
      rw [hdest, ok_then, if_neg (not_not.2 hip), ok_then, if_neg (not_not.2 hudp)]
      rfl
    have hno : isDnsQuery f.mem = false := by
      rw [← Bool.not_eq_true, isDnsQuery_iff]
      exact fun h => hudp h.2.1
    rw [hno, ok_then, if_neg (not_not.2 hip), ok_then, if_pos hudp]
    rfl
  have hno : isDnsQuery f.mem = false := by
    rw [← Bool.not_eq_true, isDnsQuery_iff]
    exact fun h => hip h.1
  rw [hno, ok_then, if_pos hip]
  rfl

variable {len : ℕ}

theorem of_isDnsQueryIn {b : Bool} (h : isDnsQueryIn p len = .ok b) :
    b = isDnsQuery p ∧ 14 ≤ len ∧ (p.get16 offHProto = htons 0x0800 → 24 ≤ len ∧
      ((p offProtocol).toNat = IPPROTO_UDP → 38 ≤ len)) := by
  unfold isDnsQueryIn at h
  obtain ⟨_, h1, h⟩ := bind_eq_ok h
  by_cases hip : p.get16 offHProto = htons 0x0800
  · rw [if_neg (not_not.2 hip)] at h
    obtain ⟨_, h2, h⟩ := bind_eq_ok h
    by_cases hudp : (p offProtocol).toNat = IPPROTO_UDP
    · rw [if_neg (not_not.2 hudp)] at h
      obtain ⟨_, h3, h⟩ := bind_eq_ok h
      cases h
      refine ⟨?_, touch_eq_ok h1, fun _ => ⟨touch_eq_ok h2, fun _ => touch_eq_ok h3⟩⟩
      unfold isDnsQuery
      rw [hip, hudp, beq_self_eq_true, beq_self_eq_true, Bool.true_and, Bool.true_and]
    rw [if_pos hudp] at h
    cases h
    refine ⟨?_, touch_eq_ok h1, fun _ => ⟨touch_eq_ok h2, fun hp => absurd hp hudp⟩⟩
    symm
    rw [← Bool.not_eq_true, isDnsQuery_iff]
    exact fun h => hudp h.2.1
  rw [if_pos hip] at h
  cases h
  refine ⟨?_, touch_eq_ok h1, fun hp => absurd hp hip⟩
  symm
  rw [← Bool.not_eq_true, isDnsQuery_iff]
  exact fun h => hip h.1

theorem parseAddrIn_of_le (h : 44 ≤ len) (s : State) (io : IoMsg) : parseAddrIn p len s io = .ok (parseAddr p s io) := by
  have hlow : ∀ o n, o + n ≤ 44 → touch len o n = .ok () := fun o n hle => touch_of_le (hle.trans h)
  unfold parseAddrIn
  rw [hlow offQuery 2 (by decide), hlow offSaddr 4 (by decide), hlow offDaddr 4 (by decide), hlow offSource 2 (by decide),
    hlow offDest 2 (by decide), hlow 0 42 (by decide), hlow offHDest 6 (by decide), hlow offHSource 6 (by decide)]
  by_cases hs : s.pktHeaderInited = false
  · simp only [if_pos hs]
    rfl
  · simp only [if_neg hs]
    rfl

theorem le_of_parseAddrIn {s : State} {io : IoMsg} {x : State × IoMsg} (h : parseAddrIn p len s io = .ok x) : 44 ≤ len := by
  unfold parseAddrIn at h
  obtain ⟨_, hquery, -⟩ := bind_eq_ok h
  exact touch_eq_ok hquery

/-- What the loop leaves when it accepts the frame in slot `j`. -/
def acceptFrame (s : State) (io : IoMsg) (r : Ring) (j m : ℕ) : Recv :=
  let f := r.frame j
  ⟨{ r with slot := update r.slot j (r.slot j).changed, avail := r.avail - (m + 1), cur := r.next j },
    (parseAddr f.mem s io).1,
    { (parseAddr f.mem s io).2 with buff := f.mem.bytes 42 (f.len - 42) ++ io.buff.drop (f.len - 42), n := f.len - 42 },
    m + 1, some f.mem⟩

theorem recvLoopIn_succ (s : State) (io : IoMsg) (k : ℕ) (r : Ring) (j m : ℕ) (v : Recv) :
    recvLoopIn s io (k + 1) r j m = .ok v ↔ (r.frame j).len < io.buffLen ∧ (r.frame j).Readable ∧
      if isDnsQuery (r.frame j).mem = true then v = acceptFrame s io r j m
      else recvLoopIn s io k { r with slot := update r.slot j (r.slot j).changed } (r.next j) (m + 1) = .ok v := by
  have hframe : r.frame j = ⟨r.buf (r.slot j).bufIdx, (r.slot j).len⟩ := rfl
  rw [recvLoopIn]
  simp only [acceptFrame, hframe]
  generalize r.buf (r.slot j).bufIdx = p
  generalize (r.slot j).len = len
  by_cases hlen : len < io.buffLen
  swap
  · rw [if_pos hlen]
    constructor
    · intro h
      cases h
    · intro h
      exact absurd h.1 hlen
  rw [if_neg (not_not.2 hlen)]
  constructor
  · intro h
    obtain ⟨b, hb, h⟩ := bind_eq_ok h
    obtain ⟨rfl, h1, hrest⟩ := of_isDnsQueryIn hb
    by_cases hq : isDnsQuery p = true
    · rw [if_pos hq] at h ⊢
      obtain ⟨x, hx, h⟩ := bind_eq_ok h
      have hle := le_of_parseAddrIn hx
      rw [parseAddrIn_of_le hle] at hx
      cases hx
      rw [if_neg (show ¬len < 42 by omega)] at h
      obtain ⟨_, -, h⟩ := bind_eq_ok h
      cases h
      exact ⟨hlen, ⟨h1, fun hip => ⟨(hrest hip).1, fun hudp => ⟨(hrest hip).2 hudp, fun _ => hle⟩⟩⟩, rfl⟩
    rw [if_neg hq] at h ⊢
    refine ⟨hlen, ⟨h1, fun hip => ⟨(hrest hip).1, fun hudp => ⟨(hrest hip).2 hudp, fun hdest => ?_⟩⟩⟩, h⟩
    exact absurd (isDnsQuery_iff.2 ⟨hip, hudp, hdest⟩) hq
  · rintro ⟨-, hread, h⟩
    have hquery : isDnsQueryIn p len = .ok (isDnsQuery p) := isDnsQueryIn_of_readable hread
    rw [hquery]
    by_cases hq : isDnsQuery p = true
    · rw [if_pos hq] at h
      subst h
      obtain ⟨hip, hudp, hdest⟩ := isDnsQuery_iff.1 hq
      have hle : 44 ≤ len := ((hread.2 hip).2 hudp).2 hdest
      simp only [ok_then, hq, if_true, parseAddrIn_of_le hle, if_neg (show ¬len < 42 by omega)]
      rw [touch_of_le (by omega)]
      rfl
    rw [if_neg hq] at h
    simp only [ok_then, hq]
    exact h

theorem frame_changed (r : Ring) (j : ℕ) :
    Ring.frame { r with slot := update r.slot j (r.slot j).changed } = r.frame := by
  funext i
  by_cases hi : i = j
  · subst hi
    simp only [Ring.frame, update_self]
    rfl
  · simp only [Ring.frame, update_of_ne hi]

theorem recvLoopIn_taken (s : State) (io : IoMsg) (k : ℕ) : ∀ (r : Ring) (j m : ℕ) {v : Recv},
    recvLoopIn s io k r j m = .ok v → v.accepted.isSome = true → m < v.m := by
  induction k with
  | zero =>
    intro r j m v h hacc
    cases h
    cases hacc
  | succ k ih =>
    intro r j m v h hacc
    obtain ⟨-, -, hrest⟩ := (recvLoopIn_succ s io k r j m v).1 h
    split at hrest
    · subst hrest
      exact Nat.lt_succ_self m
    · exact (Nat.lt_succ_self m).trans (ih _ _ _ hrest hacc)

theorem delivered_iff {f : Frame} (hf : f.Datagram) (hlen : 44 ≤ f.len) (s : State) (io : IoMsg) :
    Delivered f { (parseAddr f.mem s io).2 with
      buff := f.mem.bytes 42 (f.len - 42) ++ io.buff.drop (f.len - 42), n := f.len - 42 } ↔
    f.ihl = 20 ∧ f.len = 14 + f.totLen := by
  have htot := hf.totLen_eq
  have hudp := hf.udpLen_le
  have hin := hf.inside
  have hihl := hf.ihl_le
  constructor
  · intro h
    have hn : f.len - 42 = f.udpLen - 8 := h.n_eq
    omega
  · rintro ⟨hhdr, hend⟩
    have hn : f.len - 42 = f.udpLen - 8 := by omega
    have hstart : f.udp = 34 := by
      rw [Frame.udp, hhdr]
    refine ⟨hn, ?_, rfl, rfl, ?_, ?_⟩
    · have hlength : (f.mem.bytes 42 (f.len - 42)).length = f.len - 42 := by simp [Pkt.bytes]
      rw [List.take_left' hlength, Frame.payload, hstart, hn]
    · rw [hstart]
      rfl
    · rw [hstart]
      rfl

theorem recvLoopIn_delivers (s : State) (io : IoMsg) (k : ℕ) : ∀ (r : Ring) (j m : ℕ), (∃ v, recvLoopIn s io k r j m = .ok v ∧
      (v.accepted.isSome = true → (r.frame (r.next^[v.m - m - 1] j)).Datagram →
        Delivered (r.frame (r.next^[v.m - m - 1] j)) v.io)) ↔ RecvFits io.buffLen r.frame r.next k j := by
  induction k with
  | zero =>
    intro r j m
    refine ⟨fun _ => trivial, fun _ => ⟨_, rfl, fun h => ?_⟩⟩
    cases h
  | succ k ih =>
    intro r j m
    simp only [recvLoopIn_succ, RecvFits]
    by_cases hq : isDnsQuery (r.frame j).mem = true
    · have hzero : m + 1 - m - 1 = 0 := by omega
      have hlen : (r.frame j).Readable → 44 ≤ (r.frame j).len := by
        intro hread
        obtain ⟨hip, hudp, hdest⟩ := isDnsQuery_iff.1 hq
        exact ((hread.2 hip).2 hudp).2 hdest
      simp only [if_pos hq]
      constructor
      · rintro ⟨v, ⟨hbuf, hread, rfl⟩, hdel⟩
        refine ⟨hbuf, hread, fun _ hf => ?_, fun hno => ?_⟩
        · simp only [acceptFrame, hzero, iterate_zero, id] at hdel
          exact (delivered_iff hf (hlen hread) s io).1 (hdel rfl hf)
        · rw [hq] at hno
          cases hno
      · rintro ⟨hbuf, hread, hbare, -⟩
        refine ⟨_, ⟨hbuf, hread, rfl⟩, fun _ hf => ?_⟩
        simp only [acceptFrame, hzero, iterate_zero, id] at hf ⊢
        exact (delivered_iff hf (hlen hread) s io).2 (hbare hq hf)
    have hno : isDnsQuery (r.frame j).mem = false := Bool.not_eq_true _ ▸ hq
    have hih := ih { r with slot := update r.slot j (r.slot j).changed } (r.next j) (m + 1)
    rw [frame_changed] at hih
    simp only [if_neg hq]
    -- the slots are counted from the next one
    have hshift : ∀ v : Recv, recvLoopIn s io k { r with slot := update r.slot j (r.slot j).changed } (r.next j)
        (m + 1) = .ok v → v.accepted.isSome = true → r.next^[v.m - m - 1] j = r.next^[v.m - (m + 1) - 1] (r.next j) := by
      intro v hv hacc
      have hlt := recvLoopIn_taken s io k _ _ _ hv hacc
      rw [← iterate_succ_apply r.next, show v.m - m - 1 = (v.m - (m + 1) - 1) + 1 by omega]
    constructor
    · rintro ⟨v, ⟨hbuf, hread, hv⟩, hdel⟩
      refine ⟨hbuf, hread, fun h => absurd h hq, fun _ => hih.1 ⟨v, hv, fun hacc => ?_⟩⟩
      rw [hshift v hv hacc] at hdel
      exact hdel hacc
    · rintro ⟨hbuf, hread, -, hrest⟩
      obtain ⟨v, hv, hdel⟩ := hih.2 (hrest hno)
      refine ⟨v, ⟨hbuf, hread, hv⟩, fun hacc => ?_⟩
      rw [hshift v hv hacc]
      exact hdel hacc

/-- A receive is right if and only if the slots that it looks at fit. -/
theorem recv_delivers_iff (s : State) (r : Ring) (limit : ℕ) (io : IoMsg) :
    RecvDelivers s r limit io ↔ RecvFits io.buffLen r.frame r.next (min r.avail limit) r.cur :=
  recvLoopIn_delivers s io (min r.avail limit) r r.cur 0

/-! ### A padded query -/

/-- A query of 12 bytes from 10.0.0.1 to 10.0.0.2, with 54 bytes of headers and payload; Ethernet pads it to 60. -/
def paddedFrame : Bytes :=
  [2, 0, 0, 0, 0, 2, 2, 0, 0, 0, 0, 1, 8, 0,
    0x45, 0, 0, 40, 0, 1, 0x40, 0, 64, 17, 0x26, 0xc2, 10, 0, 0, 1, 10, 0, 0, 2,
    0x30, 0x39, 0, 53, 0, 20, 0, 0,
    0, 7, 1, 0, 0, 0, 0, 0, 0, 0, 0, 0,
    0, 0, 0, 0, 0, 0]

def paddedRing : Ring := ⟨1, 0, 1, fun _ => ⟨2, 60, 0⟩, fun _ i => paddedFrame.getD i 0, 2048⟩

theorem padded_datagram : (paddedRing.frame 0).Datagram := by
  constructor <;> decide

/-- The padding is taken for a part of the message. -/
theorem padded_not_delivered : ¬RecvDelivers State.init paddedRing 512 (recvMsg 4096) := by
  rintro ⟨v, hv, hdel⟩
  have hrun : (processRecvRingIn State.init paddedRing 512 (recvMsg 4096)).toOption.map
      (fun v => (v.io.n, v.m, v.accepted.isSome)) = some (18, 1, true) := by decide
  rw [hv] at hrun
  obtain ⟨hn, hm, hacc⟩ := Prod.mk.inj (Option.some.inj hrun) |>.imp id Prod.mk.inj
  rw [hm] at hdel
  have hlen := (hdel hacc padded_datagram).n_eq
  rw [hn] at hlen
  exact absurd hlen (by decide)

end Bind9.Netmap
