import Bind9.Name
import Bind9.NetmapReply

/-! # Sending over netmap rings

What `process_send_ring` puts into a TX slot (`netmap/dns_util.c`), and what `doio_netmap_send` of
`lib/isc/unix/socket.c` says about it.  The checksums of the frame are judged by the ones' complement sum in network byte
order (`onesSum`); `in_cksum` adds the words as the machine reads them. -/

namespace Bind9.Netmap

open List
open Function

/-! ### Checksums -/

/-- The ones' complement sum of 16-bit words; a last odd byte is padded with a zero byte. -/
def onesSum : Bytes → ℕ
  | [] => 0
  | [a] => 256 * a.toNat
  | a :: b :: rest =>
    let sum := 256 * a.toNat + b.toNat + onesSum rest
    sum % 65536 + sum / 65536

theorem onesSum_spec (bs : Bytes) :
    onesSum bs ≤ 65535 ∧ onesSum bs % 65535 = 256 * wordSum bs % 65535 ∧ (onesSum bs = 0 ↔ wordSum bs = 0) := by
  induction bs using onesSum.induct with
  | case1 => decide
  | case2 a =>
    have ha := a.toNat_lt
    rw [onesSum, wordSum]
    omega
  | case3 a b rest ih =>
    have ha := a.toNat_lt
    have hb := b.toNat_lt
    rw [onesSum, wordSum]
    omega

theorem onesSum_eq_iff (bs : Bytes) : onesSum bs = 0xffff ↔ wordSum bs % 65535 = 0 ∧ wordSum bs ≠ 0 := by
  have hspec := onesSum_spec bs
  omega

theorem wordSum_le : ∀ bs : Bytes, wordSum bs ≤ 32768 * bs.length + 32767
  | [] => by simp [wordSum]
  | [a] => by
    have ha := a.toNat_lt
    simp only [wordSum, length_singleton]
    omega
  | a :: b :: rest => by
    have ha := a.toNat_lt
    have hb := b.toNat_lt
    have ih := wordSum_le rest
    simp only [wordSum, length_cons]
    omega

theorem wordSum_append : ∀ (xs ys : Bytes), xs.length % 2 = 0 → wordSum (xs ++ ys) = wordSum xs + wordSum ys
  | [], ys, _ => by simp [wordSum]
  | [a], ys, h => by simp at h
  | a :: b :: rest, ys, h => by
    have ih := wordSum_append rest ys (by simpa [Nat.add_assoc] using h)
    rw [cons_append, cons_append, wordSum, wordSum, ih, Nat.add_assoc (a.toNat + 256 * b.toNat)]

theorem inCksum_spec (bs : Bytes) (h : bs.length ≤ 512) :
    inCksum bs < 65536 ∧ (wordSum bs + inCksum bs) % 65535 = 0 ∧ wordSum bs + inCksum bs ≠ 0 ∧
      (inCksum bs ≠ 0 ↔ onesSum bs ≠ 0xffff) := by
  have hle := wordSum_le bs
  rw [ne_eq, ne_eq, ne_eq, onesSum_eq_iff]
  obtain ⟨q, r, hr, hsum⟩ : ∃ q r, r < 65536 ∧ wordSum bs = 65536 * q + r :=
    ⟨_, _, Nat.mod_lt _ (by decide), (Nat.div_add_mod _ _).symm⟩
  have hfold : inCksum bs = 65535 - (if q + r < 65536 then q + r else q + r - 65535) := by
    have hq : wordSum bs / 65536 = q := by omega
    have hm : wordSum bs % 65536 = r := by omega
    rw [inCksum]
    simp only [hq, hm]
    split
    next hc => rw [Nat.div_eq_of_lt hc, Nat.add_zero, Nat.mod_eq_of_lt hc]
    next hc =>
      have hone : (q + r) / 65536 = 1 := by omega
      rw [hone]
      omega
  rw [hfold, hsum]
  split <;> omega

/-! ### Fields of a packet -/

variable {a n o v len : ℕ}

section packets

variable (p : Pkt)

@[simp] theorem Pkt.length_bytes (o n : ℕ) : (p.bytes o n).length = n := by simp [Pkt.bytes]

theorem Pkt.bytes_add (o k n : ℕ) : p.bytes o (k + n) = p.bytes o k ++ p.bytes (o + k) n := by
  unfold Pkt.bytes
  rw [range_add, map_append, map_map]
  simp only [comp_def, Nat.add_assoc]

theorem Pkt.wordSum_bytes_two (o : ℕ) : wordSum (p.bytes o 2) = p.get16 o := rfl

theorem Pkt.bytes_put16 (o v : ℕ) : (p.put16 o v).bytes o 2 = bytes16 v := Pkt.bytes_put p o (bytes16 v)

theorem Pkt.bytes_put32 (o v : ℕ) : (p.put32 o v).bytes o 4 = bytes16 v ++ bytes16 (v / 65536) := Pkt.bytes_put p o _

theorem Pkt.bytes_out16 (h : a + n ≤ o ∨ o + 2 ≤ a) : (p.put16 o v).bytes a n = p.bytes a n :=
  Pkt.bytes_congr (fun i hi => Pkt.put16_out p (by omega))

theorem Pkt.bytes_out32 (h : a + n ≤ o ∨ o + 4 ≤ a) : (p.put32 o v).bytes a n = p.bytes a n :=
  Pkt.bytes_congr (fun i hi => Pkt.put32_out p (by omega))

theorem Pkt.wordSum_patch {k : ℕ} (n : ℕ) {c : ℕ} (hk : k % 2 = 0) (hc : c < 65536) (hzero : p.get16 (o + k) = 0) :
    wordSum ((p.put16 (o + k) c).bytes o (k + (2 + n))) = wordSum (p.bytes o (k + (2 + n))) + c := by
  have hfront : (p.put16 (o + k) c).bytes o k = p.bytes o k := Pkt.bytes_out16 p (.inl le_rfl)
  have hback : (p.put16 (o + k) c).bytes (o + k + 2) n = p.bytes (o + k + 2) n := Pkt.bytes_out16 p (.inr le_rfl)
  rw [Pkt.bytes_add, Pkt.bytes_add, Pkt.bytes_add p, Pkt.bytes_add p (o + k), hfront, hback]
  simp only [wordSum_append, Pkt.length_bytes, hk, Pkt.wordSum_bytes_two, Pkt.get16_put16 p _ hc, hzero]
  omega

theorem Pkt.onesSum_patch (front : Bytes) {k : ℕ} (hfront : front.length % 2 = 0) (hk : k % 2 = 0)
    (hlen : front.length + (k + (2 + n)) ≤ 512) (hzero : p.get16 (o + k) = 0) :
    onesSum (front ++ (p.put16 (o + k) (inCksum (front ++ p.bytes o (k + (2 + n))))).bytes o (k + (2 + n))) = 0xffff := by
  obtain ⟨hlt, hmod, hpos, -⟩ := inCksum_spec (front ++ p.bytes o (k + (2 + n))) (by simpa using hlen)
  generalize inCksum (front ++ p.bytes o (k + (2 + n))) = c at hlt hmod hpos ⊢
  rw [wordSum_append _ _ hfront, Nat.add_assoc] at hmod hpos
  rw [onesSum_eq_iff, wordSum_append _ _ hfront, Pkt.wordSum_patch p n hk hlt hzero]
  exact ⟨hmod, hpos⟩

theorem Pkt.bytes16_get16 (o : ℕ) : bytes16 (p.get16 o) = p.bytes o 2 := by
  have h0 := (p o).toNat_lt
  have h1 := (p (o + 1)).toNat_lt
  have hlo : UInt8.ofNat (p.get16 o % 256) = p o := by
    apply UInt8.toNat_inj.1
    rw [UInt8.toNat_ofNat', Pkt.get16]
    omega
  have hhi : UInt8.ofNat (p.get16 o / 256 % 256) = p (o + 1) := by
    apply UInt8.toNat_inj.1
    rw [UInt8.toNat_ofNat', Pkt.get16]
    omega
  rw [bytes16, hlo, hhi]
  rfl

theorem Pkt.bytes16_get32 (o : ℕ) : bytes16 (p.get32 o) ++ bytes16 (p.get32 o / 65536) = p.bytes o 4 := by
  have hlt := p.get16_lt o
  have hlo : bytes16 (p.get32 o) = bytes16 (p.get16 o) := by
    have h0 : p.get32 o % 256 = p.get16 o % 256 := by rw [Pkt.get32]; omega
    have h1 : p.get32 o / 256 % 256 = p.get16 o / 256 % 256 := by rw [Pkt.get32]; omega
    rw [bytes16, bytes16, h0, h1]
  have hhi : p.get32 o / 65536 = p.get16 (o + 2) := by
    rw [Pkt.get32]
    omega
  rw [hlo, hhi, Pkt.bytes16_get16, Pkt.bytes16_get16, ← Pkt.bytes_add]

end packets

theorem htons_eq {b : ℕ} (ha : a < 256) (hb : b < 256) : htons (256 * b + a) = 256 * a + b := by
  unfold htons
  omega

theorem htons_htons (h : v < 65536) : htons (htons v) = v := by
  have ha : v % 256 < 256 := Nat.mod_lt v (by decide)
  have hb : v / 256 < 256 := by omega
  conv_lhs => rw [← Nat.div_add_mod v 256, htons_eq ha hb, htons_eq hb ha]
  exact Nat.div_add_mod v 256

/-! ### The frame of a reply -/

/-- A number in network byte order. -/
def netBytes16 (v : ℕ) : Bytes := [UInt8.ofNat (v / 256), UInt8.ofNat (v % 256)]

/-- The pseudo header of RFC 768, from the addresses of a frame. -/
def rfcPseudo (frame : Pkt) (len : ℕ) : Bytes :=
  frame.bytes offSaddr 8 ++ ([0, 17] ++ netBytes16 len)

/-- A frame for a message of so many bytes: lengths and checksums are right, with the UDP header behind the IP header that
the frame declares. -/
structure ValidFrame (frame : Pkt) (len : ℕ) : Prop where
  totLen : htons (frame.get16 offTotLen) = frame.ihl + (8 + len)
  ipSum : onesSum (frame.bytes 14 frame.ihl) = 0xffff
  udpLen : htons (frame.get16 (14 + frame.ihl + 4)) = 8 + len
  udpComputed : frame.get16 (14 + frame.ihl + 6) ≠ 0
  udpSum : onesSum (rfcPseudo frame (8 + len) ++ frame.bytes (14 + frame.ihl) (8 + len)) = 0xffff

/-- The template of a reply, with the addresses that were found for its ID. -/
def addressed (s : State) (r : Ring) (io : IoMsg) : Pkt :=
  (fillAddrs (((r.buf (r.slot r.cur).bufIdx).put 0 s.pktHeader).put 42 (io.buff.take io.buffLen)) s).1

/-- Pseudo header and segment of a reply, with no checksum yet. -/
def unsummed (a : Pkt) (daddr dest len : ℕ) : Bytes :=
  (a.bytes offSaddr 4 ++ (bytes16 daddr ++ bytes16 (daddr / 65536)) ++ ([0, 17] ++ netBytes16 (8 + len))) ++
    (a.bytes offSource 2 ++ (bytes16 dest ++ (netBytes16 (8 + len) ++ ([0, 0] ++ a.bytes offQuery len))))

theorem bytes16_htons (h : v < 65536) : bytes16 (htons v) = netBytes16 v := by
  have ha : v % 256 < 256 := Nat.mod_lt v (by decide)
  have hb : v / 256 < 256 := by omega
  have heq : htons v = 256 * (v % 256) + v / 256 := by
    conv_lhs => rw [← Nat.div_add_mod v 256, htons_eq ha hb]
  have h0 : htons v % 256 = v / 256 := by omega
  have h1 : htons v / 256 % 256 = v % 256 := by omega
  rw [bytes16, h0, h1, netBytes16]

theorem pseudoHdr_eq (p : Pkt) (h : len < 65536) : pseudoHdr (p.get32 offSaddr) (p.get32 offDaddr) len = rfcPseudo p len := by
  unfold pseudoHdr rfcPseudo
  rw [bytes16_htons h, Pkt.bytes16_get32, append_assoc (p.bytes offSaddr 4), Pkt.bytes16_get32,
    show p.bytes offSaddr 8 = p.bytes offSaddr 4 ++ p.bytes offDaddr 4 from Pkt.bytes_add p offSaddr 4 4]
  simp [IPPROTO_UDP]

/-- The frame before its UDP checksum. -/
def withoutCheck (p : Pkt) (n dest : ℕ) : Pkt :=
  ((p.put16 offDest dest).put16 offUdpCheck 0).put16 offUdpLen (htons (n - 20 - 14))

theorem fillUdp_eq (p : Pkt) (dest : ℕ) (hn : n < 65536) : fillUdp p n dest =
    (withoutCheck p n dest).put16 offUdpCheck (inCksum (rfcPseudo (withoutCheck p n dest) (n - 20 - 14) ++
      (withoutCheck p n dest).bytes offSource (n - 20 - 14))) := by
  rw [← pseudoHdr_eq _ (by omega)]
  rfl

/-- The IP header without its checksum. -/
def ipUnsummed (p : Pkt) (n daddr id : ℕ) : Pkt :=
  (((p.put32 offDaddr daddr).put16 offTotLen (htons (n - 14))).put16 offIpId id).put16 offIpCheck 0

theorem fillIp_eq (p : Pkt) (n daddr id : ℕ) : fillIp p n daddr id =
    (ipUnsummed p n daddr id).put16 offIpCheck (inCksum ((ipUnsummed p n daddr id).bytes 14 20)) := rfl

/-- What `in_cksum` is given for the UDP checksum. -/
theorem unsummed_eq (a : Pkt) (daddr dest id : ℕ) (hlen : len ≤ 492) :
    rfcPseudo (withoutCheck (fillIp a (42 + len) daddr id) (42 + len) dest) (8 + len) ++
      (withoutCheck (fillIp a (42 + len) daddr id) (42 + len) dest).bytes offSource (8 + len) =
        unsummed a daddr dest len := by
  have hn : 42 + len - 20 - 14 = 8 + len := by omega
  have hsplit : ∀ q : Pkt, q.bytes 34 (8 + len) = q.bytes 34 2 ++ (q.bytes 36 2 ++ (q.bytes 38 2 ++
      (q.bytes 40 2 ++ q.bytes 42 len))) := by
    intro q
    rw [show 8 + len = 2 + (2 + (2 + (2 + len))) by omega, Pkt.bytes_add, Pkt.bytes_add, Pkt.bytes_add, Pkt.bytes_add]
  have haddrs : ∀ q : Pkt, q.bytes 26 8 = q.bytes 26 4 ++ q.bytes 30 4 := fun q => Pkt.bytes_add q 26 4 4
  unfold rfcPseudo unsummed
  simp only [offSaddr, offSource, offQuery]
  rw [hsplit, haddrs]
  simp (disch := omega) only [withoutCheck, fillIp_eq, ipUnsummed, offDest, offUdpCheck, offUdpLen, offIpCheck, offIpId,
    offTotLen, offDaddr, Pkt.bytes_put16, Pkt.bytes_put32, Pkt.bytes_out16, Pkt.bytes_out32, hn, bytes16_htons]
  rfl

theorem length_unsummed (a : Pkt) (daddr dest len : ℕ) : (unsummed a daddr dest len).length = 20 + len := by
  simp [unsummed, bytes16, netBytes16]
  omega

theorem get16_of_bytes {p : Pkt} (hv : v < 65536) (h : p.bytes o 2 = bytes16 (htons v)) : htons (p.get16 o) = v := by
  have hlt : htons v < 65536 := by
    unfold htons
    omega
  have hget : p.get16 o = htons v := by
    rw [← Pkt.wordSum_bytes_two, h, ← Pkt.bytes_put16 p o, Pkt.wordSum_bytes_two, Pkt.get16_put16 p o hlt]
  rw [hget, htons_htons hv]

theorem fill_ihl (a : Pkt) (n daddr dest id : ℕ) : (fillUdp (fillIp a n daddr id) n dest).ihl = a.ihl := by
  have h14 : fillUdp (fillIp a n daddr id) n dest 14 = a 14 := by
    unfold fillUdp fillIp
    simp (disch := decide) only [offDest, offUdpCheck, offUdpLen, offIpCheck, offIpId, offTotLen, offDaddr, Pkt.put16_out,
      Pkt.put32_out]
  rw [Pkt.ihl, h14, Pkt.ihl]

theorem fill_totLen (a : Pkt) (daddr dest id : ℕ) (hlen : len ≤ 492) :
    htons ((fillUdp (fillIp a (42 + len) daddr id) (42 + len) dest).get16 offTotLen) = 28 + len := by
  apply get16_of_bytes (by omega)
  unfold fillUdp fillIp
  simp (disch := omega) only [offDest, offUdpCheck, offUdpLen, offIpCheck, offIpId, offTotLen, offDaddr, Pkt.bytes_put16,
    Pkt.bytes_out16, show 42 + len - 14 = 28 + len by omega]

theorem frame_valid (a : Pkt) (daddr dest id : ℕ) (hlen : len ≤ 492) :
    ValidFrame (fillUdp (fillIp a (42 + len) daddr id) (42 + len) dest) len ↔
      a.ihl = 20 ∧ onesSum (unsummed a daddr dest len) ≠ 0xffff := by
  have htot := fill_totLen a daddr dest id hlen
  have hframe := fill_ihl a (42 + len) daddr dest id
  by_cases hihl : a.ihl = 20
  swap
  · refine iff_of_false (fun h => hihl ?_) (fun h => hihl h.1)
    have hsame := htot.symm.trans h.totLen
    omega
  rw [and_iff_right hihl]
  rw [hihl] at hframe
  have hn : 42 + len - 20 - 14 = 8 + len := by omega
  have hsum := unsummed_eq a daddr dest id hlen
  have hlength := length_unsummed a daddr dest len
  generalize hp : fillIp a (42 + len) daddr id = p at hsum hframe htot ⊢
  generalize hq : withoutCheck p (42 + len) dest = q at hsum
  obtain ⟨hlt, hmod, hpos, hzero⟩ := inCksum_spec (unsummed a daddr dest len) (by omega)
  rw [fillUdp_eq p dest (by omega), hn, hq, hsum] at hframe htot ⊢
  generalize hc : inCksum (unsummed a daddr dest len) = c at hlt hmod hpos hzero hframe htot ⊢
  have hcheck : (q.put16 offUdpCheck c).get16 offUdpCheck = c := Pkt.get16_put16 q offUdpCheck hlt
  constructor
  · intro h
    have hcomputed := h.udpComputed
    rw [hframe] at hcomputed
    exact hzero.1 (hcheck ▸ hcomputed)
  intro h
  refine ⟨?_, ?_, ?_, ?_, ?_⟩
  · rw [htot, hframe]
    omega
  · rw [hframe]
    have hip : (q.put16 offUdpCheck c).bytes 14 20 = p.bytes 14 20 := by
      rw [← hq]
      simp (disch := omega) only [withoutCheck, offDest, offUdpCheck, offUdpLen, Pkt.bytes_out16]
    have hnocheck : (ipUnsummed a (42 + len) daddr id).get16 (14 + 10) = 0 := Pkt.get16_put16 _ _ (by omega)
    have hsummed := (ipUnsummed a (42 + len) daddr id).onesSum_patch [] (n := 8) rfl rfl (by decide) hnocheck
    rw [hip, ← hp]
    exact hsummed
  · rw [hframe]
    show htons (Pkt.get16 _ offUdpLen) = _
    apply get16_of_bytes (by omega)
    rw [← hq]
    simp (disch := omega) only [withoutCheck, offUdpCheck, offUdpLen, Pkt.bytes_put16, Pkt.bytes_out16, hn]
  · rw [hframe]
    show Pkt.get16 _ offUdpCheck ≠ 0
    rw [hcheck]
    exact hzero.2 h
  · rw [hframe]
    show onesSum (_ ++ Pkt.bytes _ offSource _) = _
    have hnocheck : q.get16 (34 + 6) = 0 := by
      rw [← hq, ← Pkt.wordSum_bytes_two]
      simp (disch := omega) only [withoutCheck, offUdpCheck, offUdpLen, Pkt.bytes_put16, Pkt.bytes_out16]
      rfl
    have hpseudo : rfcPseudo (q.put16 offUdpCheck c) (8 + len) = rfcPseudo q (8 + len) := by
      rw [rfcPseudo, Pkt.bytes_out16 q (.inl (by decide)), rfcPseudo]
    have hlen12 : (rfcPseudo q (8 + len)).length = 12 := by simp [rfcPseudo, netBytes16]
    have hsummed := q.onesSum_patch (rfcPseudo q (8 + len)) (n := len) (by rw [hlen12]) rfl
      (by rw [hlen12]; omega) hnocheck
    rw [show 6 + (2 + len) = 8 + len by omega] at hsummed
    change onesSum (_ ++ (q.put16 (34 + 6) (inCksum (_ ++ q.bytes offSource (8 + len)))).bytes offSource (8 + len)) = _ at hsummed
    rw [hsum, hc] at hsummed
    rw [hpseudo]
    exact hsummed

/-! ### `process_send_ring` -/

section send

variable {s : State} {r : Ring} {limit : ℕ} {io : IoMsg}

/-- A frame is put into the slot, and it is valid. -/
def SendsValid (s : State) (r : Ring) (limit : ℕ) (io : IoMsg) : Prop :=
  ∃ v frame, processSendRing s r limit io = some v ∧ v.placed = some frame ∧ ValidFrame frame io.buffLen

theorem processSendRing_spec (havail : min r.avail limit ≠ 0) (hbuf : r.bufSize ≤ 65535) :
    (¬(io.buffLen ≤ 492 ∧ 42 + io.buffLen ≤ r.bufSize) → processSendRing s r limit io = none) ∧
    (io.buffLen ≤ 492 ∧ 42 + io.buffLen ≤ r.bufSize → ∃ v id,
      let frame := fillUdp (fillIp (addressed s r io) (42 + io.buffLen) io.daddr id) (42 + io.buffLen) io.dest
      processSendRing s r limit io = some v ∧ v.placed = some frame ∧ v.io.n = io.buffLen ∧
        v.ring = { r with
          slot := update r.slot r.cur { r.slot r.cur with len := 42 + io.buffLen, flags := (r.slot r.cur).flags ||| 1 }
          buf := update r.buf (r.slot r.cur).bufIdx frame
          avail := r.avail - 1
          cur := r.next r.cur }) := by
  have hmod : 42 + io.buffLen ≤ r.bufSize → (io.buffLen + 42) % 65536 = 42 + io.buffLen := fun h => by omega
  unfold processSendRing
  rw [if_neg havail]
  by_cases hsize : r.bufSize < 42 + io.buffLen
  · rw [if_pos hsize]
    exact ⟨fun _ => rfl, fun h => absurd h.2 (by omega)⟩
  rw [if_neg hsize, hmod (by omega)]
  unfold buildPktHeader
  simp only
  by_cases hcheck : 512 < 12 + (42 + io.buffLen - 34)
  · rw [if_pos hcheck]
    exact ⟨fun _ => rfl, fun h => absurd h.1 (by omega)⟩
  · rw [if_neg hcheck]
    exact ⟨fun h => absurd ⟨by omega, by omega⟩ h, fun _ => ⟨_, _, rfl, rfl, rfl, rfl⟩⟩

/-- `process_send_ring` makes a valid frame for short messages when the IP header of the template has no options and the UDP
checksum is not computed as zero. -/
theorem transmit_frames (havail : min r.avail limit ≠ 0) (hbuf : r.bufSize ≤ 65535) :
    SendsValid s r limit io ↔ io.buffLen ≤ 492 ∧ 42 + io.buffLen ≤ r.bufSize ∧ (addressed s r io).ihl = 20 ∧
      onesSum (unsummed (addressed s r io) io.daddr io.dest io.buffLen) ≠ 0xffff := by
  obtain ⟨hno, hyes⟩ := @processSendRing_spec s r limit io havail hbuf
  constructor
  · rintro ⟨v, frame, hv, hframe, hvalid⟩
    by_cases hfits : io.buffLen ≤ 492 ∧ 42 + io.buffLen ≤ r.bufSize
    · obtain ⟨v', id, hv', hframe', -⟩ := hyes hfits
      cases hv.symm.trans hv'
      cases hframe.symm.trans hframe'
      exact ⟨hfits.1, hfits.2, (frame_valid _ _ _ _ hfits.1).1 hvalid⟩
    · rw [hno hfits] at hv
      cases hv
  · rintro ⟨hlen, hsize, hsum⟩
    obtain ⟨v, id, hv, hframe, -⟩ := hyes ⟨hlen, hsize⟩
    exact ⟨v, _, hv, hframe, (frame_valid _ _ _ _ hlen).2 hsum⟩

/-- The state behind a query, with its header as the template. -/
def afterQuery : State := (parseAddr (clientQuery 7) State.init ⟨[], 0, 0, 0, 0, 0, 0⟩).1

/-- An answer of seven bytes for it, to 10.0.0.7. -/
def oddReply : IoMsg := ⟨replyPayload ++ [3, 2, 1], 7, 0, 0, 0x0700000a, 0, 0x80⟩

theorem transmit_frames_reply : SendsValid afterQuery (oneSlot (fun _ => 0)) 512 oddReply :=
  (transmit_frames (by decide) (by decide)).2 ⟨by decide, by decide, by decide, by decide⟩

/-- A message of so many zero bytes. -/
def zeroMsg (len : ℕ) : IoMsg := ⟨replicate len 0, len, 0, 0, 0, 0, 0⟩

/-- With 493 bytes the copy in `check_buf` is too long. -/
theorem long_reply : ¬SendsValid afterQuery (oneSlot (fun _ => 0)) 512 (zeroMsg 493) := by
  rintro ⟨v, frame, hv, -⟩
  rw [(processSendRing_spec (by decide) (by decide)).1 (by decide)] at hv
  cases hv

end send

/-! ### `doio_netmap_send` -/

def nmMaxFds : ℕ := 32

/-- A `netmap_storage_s`, with the TX rings of its interface. -/
structure MyRing where
  fd : ℤ
  start : ℕ
  stop : ℕ
  tx : ℕ → Ring

/-- `netmap_getring`, the index in `g_storage`. -/
def netmapGetring (storage : ℕ → MyRing) (fd : ℤ) : Option ℕ := (range nmMaxFds).find? (fun i => (storage i).fd == fd)

/-- The loop of `netmap_send_to_ring`; the first number is `src->end - ti`. -/
def sendLoop (s : State) (io : IoMsg) (src : MyRing) : ℕ → ℕ → Option (MyRing × State × IoMsg × ℤ)
  | 0, _ => some (src, s, io, 0)
  | k + 1, ti =>
    if (src.tx ti).avail = 0 then sendLoop s io src k (ti + 1)
    else (processSendRing s (src.tx ti) 512 io).map
      (fun v => ({ src with tx := update src.tx ti v.ring }, v.st, v.io, v.m))

def netmapSend (storage : ℕ → MyRing) (s : State) (fd : ℤ) (io : IoMsg) : Option ((ℕ → MyRing) × State × IoMsg × ℤ) :=
  match netmapGetring storage fd with
  | none => some (storage, s, io, -1)
  | some i =>
    (sendLoop s io (storage i) ((storage i).stop - (storage i).start) (storage i).start).map
      (fun (src, s, io, m) => (update storage i src, s, io, m))

/-- What `doio_netmap_send` uses of the socket event. -/
structure SocketEvent where
  region : Bytes
  n : ℕ
  daddr : ℕ
  dest : ℕ
  result : Option Result

/-- The results of `doio_send`. -/
inductive Doio where
  | success
  | soft
  | hard
deriving DecidableEq

/-- The `io_msg_s` that is sent: what is left of the region. -/
def SocketEvent.msg (dev : SocketEvent) : IoMsg :=
  ⟨dev.region.drop dev.n, dev.region.length - dev.n, 0, 0, dev.daddr, 0, dev.dest⟩

def doioNetmapSend (storage : ℕ → MyRing) (s : State) (fd : ℤ) (dev : SocketEvent) :
    Option ((ℕ → MyRing) × SocketEvent × Doio) :=
  (netmapSend storage s fd dev.msg).map
    (fun (storage, _, io, _) => (storage, { dev with n := dev.n + io.n, result := some .success }, .success))

/-- One TX slot of the ring was filled with a message. -/
structure Filled (r r' : Ring) (msg : Bytes) : Prop where
  cur : r'.cur = (r.cur + 1) % r.numSlots
  avail : r'.avail + 1 = r.avail
  len : (r'.slot r.cur).len = 42 + msg.length
  payload : (r'.buf (r'.slot r.cur).bufIdx).bytes 42 msg.length = msg
  others : ∀ k, k ≠ r.cur → r'.slot k = r.slot k

/-- The process goes on, success means that the message is in one slot of one ring, and where there is no slot success is
not reported and the message stays. -/
def Truthful (storage : ℕ → MyRing) (s : State) (fd : ℤ) (dev : SocketEvent) : Prop :=
  ∃ storage' dev' d, doioNetmapSend storage s fd dev = some (storage', dev', d) ∧
    (d = .success ∧ dev'.result = some .success → dev'.n = dev.n + (dev.region.length - dev.n) ∧
      ∃ i ti r', netmapGetring storage fd = some i ∧ (storage i).start ≤ ti ∧ ti < (storage i).stop ∧
        Filled ((storage i).tx ti) r' (dev.region.drop dev.n) ∧
        storage' = update storage i { storage i with tx := update (storage i).tx ti r' }) ∧
    ((∀ i ti, netmapGetring storage fd = some i → (storage i).start ≤ ti → ti < (storage i).stop →
        ((storage i).tx ti).avail = 0) → ¬(d = .success ∧ dev'.result = some .success) ∧ dev'.n = dev.n)

def FirstFree (src : MyRing) (ti : ℕ) : Prop :=
  src.start ≤ ti ∧ ti < src.stop ∧ (src.tx ti).avail ≠ 0 ∧ ∀ tj, src.start ≤ tj → tj < ti → (src.tx tj).avail = 0

section doio

variable {storage : ℕ → MyRing} {s : State} {fd : ℤ} {dev : SocketEvent}

theorem sendLoop_spec (io : IoMsg) (src : MyRing) : ∀ k ti,
    (∀ tj, ti ≤ tj → tj < ti + k → (src.tx tj).avail = 0) ∧ sendLoop s io src k ti = some (src, s, io, 0) ∨
      ∃ tj, ti ≤ tj ∧ tj < ti + k ∧ (src.tx tj).avail ≠ 0 ∧ (∀ tl, ti ≤ tl → tl < tj → (src.tx tl).avail = 0) ∧
        sendLoop s io src k ti = (processSendRing s (src.tx tj) 512 io).map
          (fun v => ({ src with tx := update src.tx tj v.ring }, v.st, v.io, (v.m : ℤ)))
  | 0, ti => .inl ⟨fun tj h h' => absurd h' (by omega), rfl⟩
  | k + 1, ti => by
    rw [sendLoop]
    by_cases h0 : (src.tx ti).avail = 0
    · rw [if_pos h0]
      have hcons : ∀ {tj}, ti ≤ tj → tj = ti ∨ ti + 1 ≤ tj := fun h => by omega
      obtain ⟨hall, heq⟩ | ⟨tj, hle, hlt, hfree, hbefore, heq⟩ := sendLoop_spec io src k (ti + 1)
      · refine .inl ⟨fun tj h h' => ?_, heq⟩
        obtain rfl | h := hcons h
        · exact h0
        · exact hall tj h (by omega)
      refine .inr ⟨tj, by omega, by omega, hfree, fun tl h h' => ?_, heq⟩
      obtain rfl | h := hcons h
      · exact h0
      · exact hbefore tl h h'
    · rw [if_neg h0]
      exact .inr ⟨ti, le_rfl, by omega, h0, fun tl h h' => absurd h' (by omega), rfl⟩

theorem getSlot_mem {qid : ℕ} : ∀ {map map' : List MacEntry} {e : MacEntry}, getSlot qid map = some (e, map') → e ∈ map
  | m :: ms, map', e, h => by
    rw [getSlot] at h
    split at h
    · cases h
      exact mem_cons_self
    split at h
    · cases h
    next heq =>
      cases h
      exact mem_cons_of_mem _ (getSlot_mem heq)
theorem addressed_payload (hmac : ∀ e ∈ s.macaddrMap, e.smac.length = 6 ∧ e.dmac.length = 6) (r : Ring) (io : IoMsg)
    (hlen : io.buff.length = io.buffLen) : (addressed s r io).bytes 42 io.buffLen = io.buff := by
  have htake : io.buff.take io.buffLen = io.buff := by rw [← hlen, take_length]
  have hput : ∀ p : Pkt, (p.put 42 (io.buff.take io.buffLen)).bytes 42 io.buffLen = io.buff := by
    intro p
    rw [htake, ← hlen]
    exact Pkt.bytes_put p 42 io.buff
  unfold addressed fillAddrs
  split
  · exact hput _
  next e map hget =>
    obtain ⟨hs, hd⟩ := hmac e (getSlot_mem hget)
    rw [Pkt.bytes_out16 _ (.inr (by decide)), Pkt.bytes_out32 _ (.inr (by decide))]
    refine Eq.trans ?_ (hput ((r.buf (r.slot r.cur).bufIdx).put 0 s.pktHeader))
    refine Pkt.bytes_congr (fun i hi => ?_)
    rw [Pkt.put_out _ (.inr (by rw [hd, offHDest]; omega)), Pkt.put_out _ (.inr (by rw [hs, offHSource]; omega))]

theorem FirstFree.unique {src : MyRing} {ti tj : ℕ} (hi : FirstFree src ti) (hj : FirstFree src tj) : ti = tj := by
  obtain ⟨hi1, -, hi2, hi3⟩ := hi
  obtain ⟨hj1, -, hj2, hj3⟩ := hj
  rcases Nat.lt_trichotomy ti tj with h | h | h
  · exact absurd (hj3 ti hi1 h) hi2
  · exact h
  · exact absurd (hi3 tj hj1 h) hj2

/-- The ring that `process_send_ring` leaves. -/
theorem filled (hmac : ∀ e ∈ s.macaddrMap, e.smac.length = 6 ∧ e.dmac.length = 6) {r : Ring} (hcur : r.cur < r.numSlots)
    (hfree : r.avail ≠ 0) (io : IoMsg) (hlen : io.buff.length = io.buffLen) (id : ℕ) :
    Filled r { r with
      slot := update r.slot r.cur { r.slot r.cur with len := 42 + io.buffLen, flags := (r.slot r.cur).flags ||| 1 }
      buf := update r.buf (r.slot r.cur).bufIdx
        (fillUdp (fillIp (addressed s r io) (42 + io.buffLen) io.daddr id) (42 + io.buffLen) io.dest)
      avail := r.avail - 1
      cur := r.next r.cur } io.buff where
  cur := by
    unfold Ring.next
    split
    next h => rw [h, Nat.mod_self]
    next h => rw [Nat.mod_eq_of_lt (by omega)]
  avail := Nat.sub_add_cancel (Nat.pos_of_ne_zero hfree)
  len := by
    rw [hlen]
    simp only [update_self]
  payload := by
    simp only [update_self]
    rw [hlen]
    refine Eq.trans ?_ (addressed_payload hmac r io hlen)
    unfold fillUdp fillIp
    simp (disch := omega) only [offDest, offUdpCheck, offUdpLen, offIpCheck, offIpId, offTotLen, offDaddr,
      Pkt.bytes_out16, Pkt.bytes_out32]
  others k hk := update_of_ne hk ..

/-- Without a free slot success is reported all the same. -/
theorem not_truthful {storage' : ℕ → MyRing} {dev' : SocketEvent}
    (hnone : ∀ i ti, netmapGetring storage fd = some i → (storage i).start ≤ ti → ti < (storage i).stop →
      ((storage i).tx ti).avail = 0)
    (h : doioNetmapSend storage s fd dev = some (storage', dev', .success)) (hr : dev'.result = some .success) :
    ¬Truthful storage s fd dev := by
  rintro ⟨storage'', dev'', d, h', -, hno⟩
  cases h.symm.trans h'
  exact (hno hnone).1 ⟨rfl, hr⟩

/-- `doio_netmap_send` tells the truth when the first ring with a free slot takes the message, and only then. -/
theorem send_truthful (hmac : ∀ e ∈ s.macaddrMap, e.smac.length = 6 ∧ e.dmac.length = 6)
    (hring : ∀ i ti, (storage i).start ≤ ti → ti < (storage i).stop →
      ((storage i).tx ti).cur < ((storage i).tx ti).numSlots ∧ ((storage i).tx ti).bufSize ≤ 65535) :
    Truthful storage s fd dev ↔ ∃ i ti, netmapGetring storage fd = some i ∧ FirstFree (storage i) ti ∧
      dev.region.length - dev.n ≤ 492 ∧ 42 + (dev.region.length - dev.n) ≤ ((storage i).tx ti).bufSize := by
  have hlen : dev.msg.buff.length = dev.msg.buffLen := length_drop
  cases hget : netmapGetring storage fd with
  | none =>
    have hdoio : doioNetmapSend storage s fd dev =
        some (storage, { dev with n := dev.n + 0, result := some .success }, .success) := by
      rw [doioNetmapSend, netmapSend, hget]
      rfl
    refine iff_of_false (not_truthful (fun i ti h => ?_) hdoio rfl) ?_
    · rw [hget] at h
      cases h
    · rintro ⟨i, ti, h, -⟩
      cases h
  | some i =>
    obtain ⟨hall, heq⟩ | ⟨ti, hle, hlt, hfree, hbefore, heq⟩ :=
      sendLoop_spec (s := s) dev.msg (storage i) ((storage i).stop - (storage i).start) (storage i).start
    · have hdoio : doioNetmapSend storage s fd dev = some (update storage i (storage i),
          { dev with n := dev.n + 0, result := some .success }, .success) := by
        rw [doioNetmapSend, netmapSend, hget]
        simp only
        rw [heq]
        rfl
      refine iff_of_false (not_truthful (fun j ti h h₁ h2 => ?_) hdoio rfl) ?_
      · cases hget.symm.trans h
        exact hall ti h₁ (by omega)
      · rintro ⟨j, ti, h, ⟨h₁, h2, h3, -⟩, -⟩
        cases h
        exact h3 (hall ti h₁ (by omega))
    have hti : FirstFree (storage i) ti := ⟨hle, by omega, hfree, hbefore⟩
    obtain ⟨hcur, hbuf⟩ := hring i ti hle (by omega)
    obtain ⟨hno, hyes⟩ := @processSendRing_spec s ((storage i).tx ti) 512 dev.msg (by omega) hbuf
    have hdoio : doioNetmapSend storage s fd dev = ((processSendRing s ((storage i).tx ti) 512 dev.msg).map (fun v =>
        (update storage i { storage i with tx := update (storage i).tx ti v.ring },
          { dev with n := dev.n + v.io.n, result := some .success }, .success))) := by
      rw [doioNetmapSend, netmapSend, hget]
      simp only
      rw [heq]
      cases processSendRing s ((storage i).tx ti) 512 dev.msg <;> rfl
    by_cases hfits : dev.msg.buffLen ≤ 492 ∧ 42 + dev.msg.buffLen ≤ ((storage i).tx ti).bufSize
    · refine iff_of_true ?_ ⟨i, ti, rfl, hti, hfits⟩
      obtain ⟨v, id, hv, -, hn, hr⟩ := hyes hfits
      rw [hv] at hdoio
      refine ⟨_, _, _, hdoio, fun _ => ⟨?_, i, ti, v.ring, hget, hle, by omega, ?_, rfl⟩, fun h => ?_⟩
      · rw [hn]
        rfl
      · exact hr ▸ filled hmac hcur hfree dev.msg hlen id
      · exact absurd (h i ti hget hle (by omega)) hfree
    refine iff_of_false ?_ ?_
    · rintro ⟨storage', dev', d, h, -⟩
      rw [hdoio, hno hfits] at h
      cases h
    · rintro ⟨j, tj, h, htj, hfits'⟩
      cases h
      cases htj.unique hti
      exact hfits hfits'

/-- A message for a descriptor without ring. -/
def lostEvent : SocketEvent := ⟨[1], 0, 0, 0, none⟩

/-- No ring has been opened. -/
def noRings : ℕ → MyRing := fun _ => ⟨0, 0, 0, fun _ => oneSlot (fun _ => 0)⟩

/-- The message is lost, and success is reported. -/
theorem lost_message : ¬Truthful noRings State.init 5 lostEvent :=
  not_truthful (fun i ti h => by cases (show none = some i from h)) rfl rfl

/-- The fourth descriptor has three rings: one that is full, and two with room at their last slot. -/
def threeRings : ℕ → MyRing := fun i =>
  ⟨if i = 3 then 5 else -1, 0, 3, fun ti => { oneSlot (fun _ => 0) with cur := 1, avail := if ti = 0 then 0 else 1 }⟩

/-- Of a region of six bytes two have been sent. -/
def restEvent : SocketEvent := ⟨[9, 9] ++ replyPayload, 2, 0x0700000a, 0x80, none⟩

theorem send_truthful_threeRings : Truthful threeRings afterQuery 5 restEvent := by
  refine (send_truthful (by decide) (fun i ti _ _ => ⟨Nat.one_lt_two, show 2048 ≤ 65535 by decide⟩)).2 ⟨3, 1, rfl, ⟨?_, ?_, ?_, ?_⟩, ?_, ?_⟩
  · exact Nat.zero_le 1
  · decide
  · decide
  · intro tj _ htj
    obtain rfl : tj = 0 := by omega
    rfl
  · decide
  · decide

end doio

end Bind9.Netmap
