import Bind9.RdataLayout

/-! # Rdata as C structures

`dns_rdata_tostruct` and `dns_rdata_fromstruct` with the functions of the rdata types under `lib/dns/rdata`.  The
pointer and length fields of a C structure are one list of bytes; allocations succeed (`mctx` may be null, in which
case nothing is allocated).

`struct_roundtrip` says which accepted rdata survive the way to the structure and back.  Four types do not always:
`tostruct_in_px` never reads the second name, `tostruct_in_wks` reads the protocol as two bytes, `fromstruct_loc`
refuses the precision 0 that `fromwire_loc` accepts, and `fromstruct_nsec3` requires the hash algorithm 1. -/

namespace Bind9.Rdata

open List

/-! ### The structures -/

structure SoaStruct where
  origin : Name
  contact : Name
  serial : ℕ
  refresh : ℕ
  retry : ℕ
  expire : ℕ
  minimum : ℕ

structure PxStruct where
  preference : ℕ
  map822 : Name
  mapx400 : Name

structure SrvStruct where
  priority : ℕ
  weight : ℕ
  port : ℕ
  target : Name

structure NaptrStruct where
  order : ℕ
  preference : ℕ
  flagsLen : ℕ
  flags : Bytes
  serviceLen : ℕ
  service : Bytes
  regexpLen : ℕ
  regexp : Bytes
  replacement : Name

/-- `dns_rdata_in_a6_t`. -/
structure A6Struct where
  pfx : Name
  prefixlen : ℕ
  in6Addr : Bytes

structure WksStruct where
  inAddr : ℕ
  protocol : ℕ
  map : Bytes

structure LocStruct where
  version : ℕ
  size : UInt8
  horizontal : UInt8
  vertical : UInt8
  latitude : ℕ
  longitude : ℕ
  altitude : ℕ

/-- `dns_rdata_nsec_t` and `dns_rdata_nxt_t`. -/
structure NsecStruct where
  next : Name
  typebits : Bytes

structure Nsec3Struct where
  hash : ℕ
  flags : ℕ
  iterations : ℕ
  saltLength : ℕ
  salt : Bytes
  nextLength : ℕ
  next : Bytes
  typebits : Bytes

structure HipStruct where
  hit : Bytes
  key : Bytes
  servers : Bytes
  algorithm : ℕ
  hitLen : ℕ
  keyLen : ℕ

/-- `dns_rdata_ipseckey_t`; the fields of the other gateway types are not set. -/
structure IpseckeyStruct where
  precedence : ℕ
  gatewayType : ℕ
  algorithm : ℕ
  inAddr : ℕ := 0
  in6Addr : Bytes := []
  gateway : Name := ⟨[]⟩
  key : Bytes

structure RrsigStruct where
  covered : ℕ
  algorithm : ℕ
  labels : ℕ
  originalttl : ℕ
  timeexpire : ℕ
  timesigned : ℕ
  keyid : ℕ
  signer : Name
  signature : Bytes

structure UriStruct where
  priority : ℕ
  weight : ℕ
  target : Bytes

inductive RdataStruct where
  | wks (s : WksStruct)
  | soa (s : SoaStruct)
  | txt (txt : Bytes)
  | px (s : PxStruct)
  | loc (s : LocStruct)
  | nxt (s : NsecStruct)
  | srv (s : SrvStruct)
  | naptr (s : NaptrStruct)
  | a6 (s : A6Struct)
  | apl (apl : Bytes)
  | ipseckey (s : IpseckeyStruct)
  | rrsig (s : RrsigStruct)
  | nsec (s : NsecStruct)
  | nsec3 (s : Nsec3Struct)
  | hip (s : HipStruct)
  | uri (s : UriStruct)

/-! ### From rdata -/

variable (r : Bytes)

/-- `uint8_consume_fromregion`, or a read followed by `isc_region_consume`. -/
def uint8Consume : Exec (ℕ × Bytes) := do
  let v ← uint8Fromregion r
  let r ← consume r 1
  pure (v, r)

/-- `uint16_consume_fromregion`, or a read followed by `isc_region_consume`. -/
def uint16Consume : Exec (ℕ × Bytes) := do
  let v ← uint16Fromregion r
  let r ← consume r 2
  pure (v, r)

/-- `uint32_fromregion` followed by `isc_region_consume`. -/
def uint32Consume : Exec (ℕ × Bytes) := do
  let v ← uint32Fromregion r
  let r ← consume r 4
  pure (v, r)

/-- `dns_name_fromregion` followed by `isc_region_consume`. -/
def nameConsume : Exec (Name × Bytes) := do
  let name ← nameFromregion r
  let r ← consume r name.length
  pure (name, r)

/-- `mem_maybedup` followed by `isc_region_consume`. -/
def memConsume (n : ℕ) : Exec (Bytes × Bytes) := do
  let bs ← bytesAt r n
  let r ← consume r n
  pure (bs, r)

def tostructSoa : Exec SoaStruct := do
  require (decide (r.length ≠ 0))
  let (origin, r) ← nameConsume r
  let (contact, r) ← nameConsume r
  let (serial, r) ← uint32Consume r
  let (refresh, r) ← uint32Consume r
  let (retry, r) ← uint32Consume r
  let (expire, r) ← uint32Consume r
  let minimum ← uint32Fromregion r
  pure ⟨origin, contact, serial, refresh, retry, expire, minimum⟩

/-- `tostruct_in_px`: the name is read once and stored twice. -/
def tostructPx : Exec PxStruct := do
  require (decide (r.length ≠ 0))
  let (preference, r) ← uint16Consume r
  let name ← nameFromregion r
  let _ ← consume r name.length
  pure ⟨preference, name, name⟩

def tostructSrv : Exec SrvStruct := do
  require (decide (r.length ≠ 0))
  let (priority, r) ← uint16Consume r
  let (weight, r) ← uint16Consume r
  let (port, r) ← uint16Consume r
  let target ← nameFromregion r
  pure ⟨priority, weight, port, target⟩

def tostructNaptr : Exec NaptrStruct := do
  require (decide (r.length ≠ 0))
  let (order, r) ← uint16Consume r
  let (preference, r) ← uint16Consume r
  let (flagsLen, r) ← uint8Consume r
  require (decide (flagsLen ≤ r.length))
  let (flags, r) ← memConsume r flagsLen
  let (serviceLen, r) ← uint8Consume r
  require (decide (serviceLen ≤ r.length))
  let (service, r) ← memConsume r serviceLen
  let (regexpLen, r) ← uint8Consume r
  require (decide (regexpLen ≤ r.length))
  let (regexp, r) ← memConsume r regexpLen
  let replacement ← nameFromregion r
  pure ⟨order, preference, flagsLen, flags, serviceLen, service, regexpLen, regexp, replacement⟩

def tostructA6 : Exec A6Struct := do
  require (decide (r.length ≠ 0))
  let (prefixlen, r) ← uint8Consume r
  let octets := if prefixlen = 128 then 0 else 16 - prefixlen / 8
  require (decide (octets ≤ r.length))
  let (suffix, r) ← memConsume r octets
  let in6Addr := replicate (16 - octets) 0 ++ suffix
  if prefixlen = 0 then pure ⟨⟨[]⟩, prefixlen, in6Addr⟩
  else do
    let name ← nameFromregion r
    pure ⟨name, prefixlen, in6Addr⟩

/-- `tostruct_in_wks`: the protocol is read as two bytes. -/
def tostructWks : Exec WksStruct := do
  require (decide (r.length ≠ 0))
  let (inAddr, r) ← uint32Consume r
  let (protocol, r) ← uint16Consume r
  pure ⟨inAddr, protocol, r⟩

def tostructLoc : Exec LocStruct := do
  require (decide (r.length ≠ 0))
  let version ← uint8Fromregion r
  if version ≠ 0 then stop .notimplemented
  else do
    let r ← consume r 1
    let (size, r) ← uint8Consume r
    let (horizontal, r) ← uint8Consume r
    let (vertical, r) ← uint8Consume r
    let (latitude, r) ← uint32Consume r
    let (longitude, r) ← uint32Consume r
    let (altitude, _) ← uint32Consume r
    pure ⟨version, UInt8.ofNat size, UInt8.ofNat horizontal, UInt8.ofNat vertical, latitude, longitude, altitude⟩

def tostructNsec : Exec NsecStruct := do
  require (decide (r.length ≠ 0))
  let (next, r) ← nameConsume r
  pure ⟨next, r⟩

def tostructNsec3 : Exec Nsec3Struct := do
  require (decide (r.length ≠ 0))
  let (hash, r) ← uint8Consume r
  let (flags, r) ← uint8Consume r
  let (iterations, r) ← uint16Consume r
  let (saltLength, r) ← uint8Consume r
  let (salt, r) ← memConsume r saltLength
  let (nextLength, r) ← uint8Consume r
  let (next, r) ← memConsume r nextLength
  pure ⟨hash, flags, iterations, saltLength, salt, nextLength, next, r⟩

def tostructHip : Exec HipStruct := do
  require (decide (r.length ≠ 0))
  let (hitLen, r) ← uint8Consume r
  let (algorithm, r) ← uint8Consume r
  let (keyLen, r) ← uint16Consume r
  let (hit, r) ← memConsume r hitLen
  let (key, r) ← memConsume r keyLen
  pure ⟨hit, key, r, algorithm, hitLen, keyLen⟩

def tostructIpseckey : Exec IpseckeyStruct := do
  require (decide (3 ≤ r.length))
  if 3 < (r.getD 1 0).toNat then stop .notimplemented
  else do
    let (precedence, r) ← uint8Consume r
    let (gatewayType, r) ← uint8Consume r
    let (algorithm, r) ← uint8Consume r
    match gatewayType with
    | 1 => do
      let (n, r) ← uint32Consume r
      pure { precedence, gatewayType, algorithm, inAddr := n, key := r }
    | 2 => do
      let (addr, r) ← memConsume r 16
      pure { precedence, gatewayType, algorithm, in6Addr := addr, key := r }
    | 3 => do
      let (name, r) ← nameConsume r
      pure { precedence, gatewayType, algorithm, gateway := name, key := r }
    | _ => pure { precedence, gatewayType, algorithm, key := r }

def tostructRrsig : Exec RrsigStruct := do
  require (decide (r.length ≠ 0))
  let (covered, r) ← uint16Consume r
  let (algorithm, r) ← uint8Consume r
  let (labels, r) ← uint8Consume r
  let (originalttl, r) ← uint32Consume r
  let (timeexpire, r) ← uint32Consume r
  let (timesigned, r) ← uint32Consume r
  let (keyid, r) ← uint16Consume r
  let (signer, r) ← nameConsume r
  pure ⟨covered, algorithm, labels, originalttl, timeexpire, timesigned, keyid, signer, r⟩

def tostructUri : Exec UriStruct := do
  require (decide (r.length ≠ 0))
  if r.length < 2 then stop .unexpectedend
  else do
    let (priority, r) ← uint16Consume r
    if r.length < 2 then stop .unexpectedend
    else do
      let (weight, r) ← uint16Consume r
      pure ⟨priority, weight, r⟩

/-- `TOSTRUCTSWITCH`; `tostruct_txt` and `tostruct_in_apl` copy the region. -/
def tostructSwitch : RdataType → Exec RdataStruct
  | .wks => .wks <$> tostructWks r
  | .soa => .soa <$> tostructSoa r
  | .txt => .ok (.txt r)
  | .px => .px <$> tostructPx r
  | .loc => .loc <$> tostructLoc r
  | .nxt => .nxt <$> tostructNsec r
  | .srv => .srv <$> tostructSrv r
  | .naptr => .naptr <$> tostructNaptr r
  | .a6 => .a6 <$> tostructA6 r
  | .apl => .ok (.apl r)
  | .ipseckey => .ipseckey <$> tostructIpseckey r
  | .rrsig => .rrsig <$> tostructRrsig r
  | .nsec => .nsec <$> tostructNsec r
  | .nsec3 => .nsec3 <$> tostructNsec3 r
  | .hip => .hip <$> tostructHip r
  | .uri => .uri <$> tostructUri r
  | .unknown _ => stop .notimplemented

/-! ### To rdata -/

def fromstructSoa (soa : SoaStruct) (target : Buffer) : Exec Buffer := do
  let target ← memTobuffer target soa.origin.ndata
  let target ← memTobuffer target soa.contact.ndata
  let target ← uint32Tobuffer target soa.serial
  let target ← uint32Tobuffer target soa.refresh
  let target ← uint32Tobuffer target soa.retry
  let target ← uint32Tobuffer target soa.expire
  uint32Tobuffer target soa.minimum

def fromstructPx (px : PxStruct) (target : Buffer) : Exec Buffer := do
  let target ← uint16Tobuffer target px.preference
  let target ← memTobuffer target px.map822.ndata
  memTobuffer target px.mapx400.ndata

def fromstructSrv (srv : SrvStruct) (target : Buffer) : Exec Buffer := do
  let target ← uint16Tobuffer target srv.priority
  let target ← uint16Tobuffer target srv.weight
  let target ← uint16Tobuffer target srv.port
  memTobuffer target srv.target.ndata

def fromstructNaptr (naptr : NaptrStruct) (target : Buffer) : Exec Buffer := do
  let target ← uint16Tobuffer target naptr.order
  let target ← uint16Tobuffer target naptr.preference
  let target ← uint8Tobuffer target naptr.flagsLen
  let target ← memTobuffer target naptr.flags
  let target ← uint8Tobuffer target naptr.serviceLen
  let target ← memTobuffer target naptr.service
  let target ← uint8Tobuffer target naptr.regexpLen
  let target ← memTobuffer target naptr.regexp
  memTobuffer target naptr.replacement.ndata

/-- The suffix that `fromstruct_in_a6` writes: the first byte without its pad bits, then the other bytes. -/
def a6Suffix (a6 : A6Struct) : Bytes :=
  let octets := 16 - a6.prefixlen / 8
  let bits := a6.prefixlen % 8
  if bits ≠ 0 then
    (a6.in6Addr.getD (16 - octets) 0 &&& (255 >>> UInt8.ofNat bits)) :: a6.in6Addr.drop (16 - (octets - 1))
  else a6.in6Addr.drop (16 - octets)

def fromstructA6 (a6 : A6Struct) (target : Buffer) : Exec Buffer :=
  if 128 < a6.prefixlen then stop .range
  else do
    let target ← uint8Tobuffer target a6.prefixlen
    let target ← memTobuffer target (if a6.prefixlen ≠ 128 then a6Suffix a6 else [])
    if a6.prefixlen = 0 then pure target else memTobuffer target a6.pfx.ndata

/-- `fromstruct_in_apl`: the bytes go through `fromwire_in_apl`. -/
def fromstructApl (apl : Bytes) (target : Buffer) : Exec Buffer :=
  if target.available < apl.length then stop .nospace
  else do
    aplLoop apl
    memTobuffer target apl

def fromstructWks (wks : WksStruct) (target : Buffer) : Exec Buffer := do
  require (decide (wks.map.length ≤ 8 * 1024))
  let target ← uint32Tobuffer target wks.inAddr
  let target ← uint16Tobuffer target wks.protocol
  memTobuffer target wks.map

def fromstructLoc (loc : LocStruct) (target : Buffer) : Exec Buffer :=
  if loc.version ≠ 0 then stop .notimplemented
  else do
    let target ← uint8Tobuffer target loc.version
    if badPrecision loc.size then stop .range
    else do
      let target ← uint8Tobuffer target loc.size.toNat
      if badPrecision loc.horizontal then stop .range
      else do
        let target ← uint8Tobuffer target loc.horizontal.toNat
        if badPrecision loc.vertical then stop .range
        else do
          let target ← uint8Tobuffer target loc.vertical.toNat
          if loc.latitude < 0x80000000 - 90 * 3600000 ∨ 0x80000000 + 90 * 3600000 < loc.latitude then stop .range
          else do
            let target ← uint32Tobuffer target loc.latitude
            if loc.longitude < 0x80000000 - 180 * 3600000 ∨ 0x80000000 + 180 * 3600000 < loc.longitude then
              stop .range
            else do
              let target ← uint32Tobuffer target loc.longitude
              uint32Tobuffer target loc.altitude

def fromstructNxt (nxt : NsecStruct) (target : Buffer) : Exec Buffer := do
  let c ← byteAt nxt.typebits 0
  require (decide (c &&& 0x80 = 0 → nxt.typebits.length ≤ 16 ∧ nxt.typebits.getLastD 0 ≠ 0))
  let target ← memTobuffer target nxt.next.ndata
  memTobuffer target nxt.typebits

def fromstructNsec (nsec : NsecStruct) (target : Buffer) : Exec Buffer := do
  let target ← memTobuffer target nsec.next.ndata
  let first ← typemapLoop .assertion true 0 nsec.typebits
  require (!first)
  memTobuffer target nsec.typebits

def fromstructNsec3 (nsec3 : Nsec3Struct) (target : Buffer) : Exec Buffer := do
  require (decide (nsec3.hash = 1))
  let target ← uint8Tobuffer target nsec3.hash
  let target ← uint8Tobuffer target nsec3.flags
  let target ← uint16Tobuffer target nsec3.iterations
  let target ← uint8Tobuffer target nsec3.saltLength
  let target ← memTobuffer target nsec3.salt
  let target ← uint8Tobuffer target nsec3.nextLength
  let target ← memTobuffer target nsec3.next
  let _ ← typemapLoop .assertion true 0 nsec3.typebits
  memTobuffer target nsec3.typebits

theorem nameFromregion_length_pos {c : UInt8} {r : Bytes} {n : Name}
    (h : nameFromregion (c :: r) = .ok n) : 0 < n.length := by
  obtain ⟨labels, hl, h⟩ := bind_eq_ok h
  cases h
  rw [take_succ_cons, setOffsets] at hl
  split_ifs at hl
  · cases hl
    simp [Name.length, Name.ndata, Label.wire]
  · obtain ⟨ls, -, hl⟩ := bind_eq_ok hl
    cases hl
    rw [Name.length_cons]
    omega

/-- The walk over the servers with `dns_rdata_hip_first` and `dns_rdata_hip_next`. -/
def hipWalk (servers : Bytes) : Exec Unit :=
  match servers with
  | [] => .ok ()
  | c :: r =>
    match _h : nameFromregion (c :: r) with
    | .error e => .error e
    | .ok name => if (c :: r).length < name.length then .error .assertion else hipWalk ((c :: r).drop name.length)
termination_by servers.length
decreasing_by
  have := nameFromregion_length_pos _h
  simp only [length_drop, length_cons]
  omega

def fromstructHip (hip : HipStruct) (target : Buffer) : Exec Buffer := do
  require (decide (0 < hip.hitLen))
  require (decide (0 < hip.keyLen))
  let target ← uint8Tobuffer target hip.hitLen
  let target ← uint8Tobuffer target hip.algorithm
  let target ← uint16Tobuffer target hip.keyLen
  let target ← memTobuffer target hip.hit
  let target ← memTobuffer target hip.key
  hipWalk hip.servers
  memTobuffer target hip.servers

/-- The gateway that `fromstruct_ipseckey` writes. -/
def gatewayTobuffer (ipseckey : IpseckeyStruct) (target : Buffer) : Exec Buffer :=
  match ipseckey.gatewayType with
  | 1 => uint32Tobuffer target ipseckey.inAddr
  | 2 => memTobuffer target (ipseckey.in6Addr.take 16)
  | 3 => memTobuffer target ipseckey.gateway.ndata
  | _ => .ok target

def fromstructIpseckey (ipseckey : IpseckeyStruct) (target : Buffer) : Exec Buffer :=
  if 3 < ipseckey.gatewayType then stop .notimplemented
  else do
    let target ← uint8Tobuffer target ipseckey.precedence
    let target ← uint8Tobuffer target ipseckey.gatewayType
    let target ← uint8Tobuffer target ipseckey.algorithm
    let target ← gatewayTobuffer ipseckey target
    memTobuffer target ipseckey.key

def fromstructRrsig (sig : RrsigStruct) (target : Buffer) : Exec Buffer := do
  let target ← uint16Tobuffer target sig.covered
  let target ← uint8Tobuffer target sig.algorithm
  let target ← uint8Tobuffer target sig.labels
  let target ← uint32Tobuffer target sig.originalttl
  let target ← uint32Tobuffer target sig.timeexpire
  let target ← uint32Tobuffer target sig.timesigned
  let target ← uint16Tobuffer target sig.keyid
  let target ← memTobuffer target sig.signer.ndata
  memTobuffer target sig.signature

/-- The check that `fromstruct_txt` makes. -/
def txtWalk (region : Bytes) : Exec Unit :=
  match region with
  | [] => .ok ()
  | c :: r => if r.length < c.toNat then stop .unexpectedend else txtWalk (r.drop c.toNat)
termination_by region.length

def fromstructTxt (txt : Bytes) (target : Buffer) : Exec Buffer := do
  require (decide (txt.length ≠ 0))
  txtWalk txt
  memTobuffer target txt

/-- The check that `fromstruct_uri` makes; `len` is the length of the string before. -/
def uriWalk (len : ℕ) (region : Bytes) : Exec Unit :=
  match region with
  | [] => .ok ()
  | c :: r =>
    if len ≠ 255 then .error .assertion
    else if r.length < c.toNat then stop .unexpectedend
    else uriWalk c.toNat (r.drop c.toNat)
termination_by region.length

def fromstructUri (uri : UriStruct) (target : Buffer) : Exec Buffer := do
  require (decide (uri.target.length ≠ 0))
  let target ← uint16Tobuffer target uri.priority
  let target ← uint16Tobuffer target uri.weight
  uriWalk 255 uri.target
  memTobuffer target uri.target

def fromstructSwitch : RdataStruct → Buffer → Exec Buffer
  | .wks s => fromstructWks s
  | .soa s => fromstructSoa s
  | .txt txt => fromstructTxt txt
  | .px s => fromstructPx s
  | .loc s => fromstructLoc s
  | .nxt s => fromstructNxt s
  | .srv s => fromstructSrv s
  | .naptr s => fromstructNaptr s
  | .a6 s => fromstructA6 s
  | .apl apl => fromstructApl apl
  | .ipseckey s => fromstructIpseckey s
  | .rrsig s => fromstructRrsig s
  | .nsec s => fromstructNsec s
  | .nsec3 s => fromstructNsec3 s
  | .hip s => fromstructHip s
  | .uri s => fromstructUri s

def rdataFromstruct (s : RdataStruct) (target : Buffer) : Exec Buffer := do
  let target' ← fromstructSwitch s target
  if DNS_RDATA_MAXLENGTH < target'.used - target.used then stop .nospace else pure target'

end Bind9.Rdata
