import Mathlib.Data.List.Basic
import Mathlib.Tactic

/-! # DNS over netmap rings

`netmap/dns_util.c`: a query is taken from an RX slot, its addresses are remembered in the
8-entry table `g_macaddr_map` under the query ID, and a reply is put into a TX slot with the
addresses found there under the ID of the reply.

Packet memory is a function from offsets to bytes (`Pkt`), 16- and 32-bit fields are read and
written in the byte order of the machine (little endian), as the source does.  A function
returns `none` where the process would abort or write outside its memory: a failed `assert`, a
`memcpy` of negative length, a reply longer than the slot or than the 512-byte `check_buf`. -/

namespace Bind9.Netmap

open List
open Function

/-- Packet memory. -/
abbrev Pkt := ℕ → UInt8

variable (p : Pkt)

/-- `memcpy` of `bs` to offset `o`. -/
def Pkt.put (o : ℕ) (bs : List UInt8) : Pkt :=
  fun i => if o ≤ i ∧ i < o + bs.length then bs.getD (i - o) 0 else p i

/-- The `n` bytes at offset `o`. -/
def Pkt.bytes (o n : ℕ) : List UInt8 := (range n).map (fun i => p (o + i))

def Pkt.get16 (o : ℕ) : ℕ := (p o).toNat + 256 * (p (o + 1)).toNat

def Pkt.get32 (o : ℕ) : ℕ := p.get16 o + 65536 * p.get16 (o + 2)

def bytes16 (v : ℕ) : List UInt8 := [UInt8.ofNat (v % 256), UInt8.ofNat (v / 256 % 256)]

def Pkt.put16 (o v : ℕ) : Pkt := p.put o (bytes16 v)

def Pkt.put32 (o v : ℕ) : Pkt := p.put o (bytes16 v ++ bytes16 (v / 65536))

def htons (v : ℕ) : ℕ := v % 256 * 256 + v / 256 % 256

/-! ### Frame layout -/

-- struct ethhdr: h_dest, h_source, h_proto
def offHDest : ℕ := 0
def offHSource : ℕ := 6
def offHProto : ℕ := 12
-- struct iphdr, which starts at 14 and has 20 bytes
def offTotLen : ℕ := 16
def offIpId : ℕ := 18
def offProtocol : ℕ := 23
def offIpCheck : ℕ := 24
def offSaddr : ℕ := 26
def offDaddr : ℕ := 30
-- struct udphdr, which starts at 34 and has 8 bytes
def offSource : ℕ := 34
def offDest : ℕ := 36
def offUdpLen : ℕ := 38
def offUdpCheck : ℕ := 40
-- the DNS message, which starts with its ID
def offQuery : ℕ := 42

def IPPROTO_UDP : ℕ := 17

/-- The length that the IP header has by its IHL. -/
def Pkt.ihl : ℕ := 4 * ((p 14).toNat % 16)

/-! ### The table of MAC addresses -/

/-- A `macaddr_map_s`; `dirty` tells an entry in use from a free one. -/
structure MacEntry where
  smac : List UInt8
  dmac : List UInt8
  dirty : Bool
  qid : ℕ
  saddr : ℕ
  source : ℕ
deriving DecidableEq, Repr

def MAC_ADDR_MAP_ITEMS : ℕ := 8

def MacEntry.zero : MacEntry := ⟨replicate 6 0, replicate 6 0, false, 0, 0, 0⟩

/-- The static variables of the file. -/
structure State where
  macaddrMap : List MacEntry
  macaddrMapInited : Bool
  pktHeader : List UInt8
  pktHeaderInited : Bool
  ipIdNext : ℕ
deriving DecidableEq, Repr

def State.init : State where
  macaddrMap := replicate MAC_ADDR_MAP_ITEMS .zero
  macaddrMapInited := false
  pktHeader := replicate 42 0
  pktHeaderInited := false
  ipIdNext := 0x12a

/-- The loop of `netmap_add_macaddr`: the first free entry, else the last one. -/
def addSlot (e : MacEntry) : List MacEntry → List MacEntry
  | [] => []
  -- behind the loop `m` still points at the last entry
  | [_] => [e]
  | m :: ms => if m.dirty then m :: addSlot e ms else e :: ms

/-- `netmap_add_macaddr`; `e` holds the arguments, marked as in use. -/
def addMacaddr (s : State) (e : MacEntry) : State :=
  let s := if s.macaddrMapInited then s
    else { s with macaddrMapInited := true,
                  macaddrMap := replicate MAC_ADDR_MAP_ITEMS .zero }
  { s with macaddrMap := addSlot e s.macaddrMap }

/-- The loop of `netmap_get_macmap`: the first entry with that ID, whether in use or not, is
returned and released. -/
def getSlot (qid : ℕ) : List MacEntry → Option (MacEntry × List MacEntry)
  | [] => none
  | m :: ms =>
    if m.qid = qid then some (m, { m with dirty := false } :: ms)
    else match getSlot qid ms with
      | none => none
      | some (e, ms') => some (e, m :: ms')

/-! ### Receiving -/

/-- An `io_msg_s`; `buff` is what stands in the caller's buffer. -/
structure IoMsg where
  buff : List UInt8
  buffLen : ℕ
  n : ℕ
  saddr : ℕ
  daddr : ℕ
  source : ℕ
  dest : ℕ
deriving DecidableEq, Repr

structure Slot where
  bufIdx : ℕ
  len : ℕ
  flags : ℕ
deriving DecidableEq, Repr

/-- A `netmap_ring` with the buffers its slots point at, each `bufSize` bytes long. -/
structure Ring where
  numSlots : ℕ
  cur : ℕ
  avail : ℕ
  slot : ℕ → Slot
  buf : ℕ → Pkt
  bufSize : ℕ

def Ring.next (r : Ring) (i : ℕ) : ℕ := if i + 1 = r.numSlots then 0 else i + 1

/-- `flags |= NS_BUF_CHANGED`. -/
def Slot.changed (s : Slot) : Slot := { s with flags := s.flags ||| 1 }

/-- `is_dns_query`, true for the result 0. -/
def isDnsQuery : Bool :=
  p.get16 offHProto == htons 0x0800 && (p offProtocol).toNat == IPPROTO_UDP &&
    p.get16 offDest == htons 53

/-- What `parse_addr` hands to `netmap_add_macaddr`. -/
def entryOf : MacEntry where
  smac := p.bytes offHDest 6
  dmac := p.bytes offHSource 6
  dirty := true
  qid := p.get16 offQuery
  saddr := p.get32 offDaddr
  source := p.get16 offDest

def parseAddr (s : State) (io : IoMsg) : State × IoMsg :=
  let io := { io with
    saddr := p.get32 offSaddr
    daddr := p.get32 offDaddr
    source := p.get16 offSource
    dest := p.get16 offDest }
  let s := if s.pktHeaderInited then s
    else { s with pktHeaderInited := true, pktHeader := p.bytes 0 42 }
  (addMacaddr s (entryOf p), io)

/-- What a receive leaves: the ring, the static variables, the message, the number of slots
taken, and the frame for which `f` was set. -/
structure Recv where
  ring : Ring
  st : State
  io : IoMsg
  m : ℕ
  accepted : Option Pkt

/-- The loop of `process_recv_ring` at slot `j`; the first argument is `limit - m`. -/
def recvLoop (s : State) (io : IoMsg) : ℕ → Ring → ℕ → ℕ → Option Recv
  | 0, r, j, m => some ⟨{ r with avail := r.avail - m, cur := j }, s, io, m, none⟩
  | k + 1, r, j, m =>
    let rs := r.slot j
    let rxbuf := r.buf rs.bufIdx
    let r' := { r with slot := update r.slot j rs.changed }
    if ¬ rs.len < io.buffLen then none
    else if isDnsQuery rxbuf then
      let (s', io') := parseAddr rxbuf s io
      if rs.len < 42 then none
      else
        let n := rs.len - 42
        some ⟨{ r' with avail := r.avail - (m + 1), cur := r.next j }, s',
          { io' with buff := rxbuf.bytes 42 n ++ io.buff.drop n, n := n }, m + 1, some rxbuf⟩
    else recvLoop s io k r' (r.next j) (m + 1)

def processRecvRing (s : State) (r : Ring) (limit : ℕ) (io : IoMsg) : Option Recv :=
  recvLoop s io (min r.avail limit) r r.cur 0

/-- `netmap_recv_from_ring`, over the rings of the interface: the first one with packets. -/
def recvFromRing (s : State) (io : IoMsg) : List Ring → Option (State × IoMsg × Option Pkt)
  | [] => some (s, io, none)
  | r :: rs =>
    if r.avail = 0 then recvFromRing s io rs
    else (processRecvRing s r 512 io).map (fun v => (v.st, v.io, v.accepted))

/-! ### Sending -/

/-- The sum of the 16-bit words of `in_cksum`; a last odd byte is a word of its own. -/
def wordSum : List UInt8 → ℕ
  | [] => 0
  | [a] => a.toNat
  | a :: b :: rest => a.toNat + 256 * b.toNat + wordSum rest

def inCksum (bs : List UInt8) : ℕ :=
  let sum := wordSum bs
  let sum := sum / 65536 + sum % 65536
  let sum := sum + sum / 65536
  65535 - sum % 65536

/-- `struct pesudo_udphdr`. -/
def pseudoHdr (saddr daddr udpLen : ℕ) : List UInt8 :=
  bytes16 saddr ++ bytes16 (saddr / 65536) ++ bytes16 daddr ++ bytes16 (daddr / 65536) ++
    [0, UInt8.ofNat IPPROTO_UDP] ++ bytes16 (htons udpLen)

/-- The Ethernet part of `build_pkt_header`: a failed lookup leaves the frame as it is. -/
def fillAddrs (s : State) : Pkt × State :=
  match getSlot (p.get16 offQuery) s.macaddrMap with
  | none => (p, s)
  | some (e, map) =>
    ((((p.put offHSource e.smac).put offHDest e.dmac).put32 offSaddr e.saddr).put16 offSource
      e.source, { s with macaddrMap := map })

/-- The IP part of `build_pkt_header`; `id` is `++g_ip_id_next`. -/
def fillIp (n daddr id : ℕ) : Pkt :=
  let p := p.put32 offDaddr daddr
  let p := p.put16 offTotLen (htons (n - 14))
  let p := p.put16 offIpId id
  let p := p.put16 offIpCheck 0
  p.put16 offIpCheck (inCksum (p.bytes 14 20))

/-- The UDP part of `build_pkt_header`. -/
def fillUdp (n dest : ℕ) : Pkt :=
  let p := p.put16 offDest dest
  let p := p.put16 offUdpCheck 0
  let udpLen := n - 20 - 14
  let p := p.put16 offUdpLen (htons udpLen)
  p.put16 offUdpCheck
    (inCksum (pseudoHdr (p.get32 offSaddr) (p.get32 offDaddr) udpLen ++ p.bytes 34 udpLen))

/-- `build_pkt_header`; the UDP part is copied into `check_buf` behind the pseudo header. -/
def buildPktHeader (n : ℕ) (io : IoMsg) (s : State) : Option (Pkt × State) :=
  let (p, s) := fillAddrs p s
  let id := (s.ipIdNext + 1) % 65536
  let s := { s with ipIdNext := id }
  if 512 < 12 + (n - 34) then none
  else some (fillUdp (fillIp p n io.daddr id) n io.dest, s)

/-- What a send leaves: the ring, the static variables, the message, the number of slots
filled, and the frame. -/
structure Send where
  ring : Ring
  st : State
  io : IoMsg
  m : ℕ
  placed : Option Pkt

def processSendRing (s : State) (r : Ring) (limit : ℕ) (io : IoMsg) : Option Send :=
  if min r.avail limit = 0 then some ⟨r, s, io, 0, none⟩
  else
    let k := r.cur
    let ts := { r.slot k with len := (io.buffLen + 42) % 65536 }
    let txbuf := r.buf ts.bufIdx
    if r.bufSize < 42 + io.buffLen then none
    else
      let txbuf := (txbuf.put 0 s.pktHeader).put 42 (io.buff.take io.buffLen)
      match buildPktHeader txbuf ts.len io s with
      | none => none
      | some (txbuf, s) =>
        some ⟨{ r with
            slot := update r.slot k ts.changed
            buf := update r.buf ts.bufIdx txbuf
            avail := r.avail - 1
            cur := r.next k }, s, { io with n := io.buffLen }, 1, some txbuf⟩

/-- `netmap_send_to_ring`: the first ring with a free slot. -/
def sendToRing (s : State) (io : IoMsg) : List Ring → Option (State × IoMsg × Option Pkt)
  | [] => some (s, io, none)
  | r :: rs =>
    if r.avail = 0 then sendToRing s io rs
    else (processSendRing s r 512 io).map (fun v => (v.st, v.io, v.placed))

end Bind9.Netmap
