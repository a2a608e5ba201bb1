import Bind9.Name

/-! # TSIG verification

`dns_tsig_verify` and `tsig_verify_tcp` of `lib/dns/tsig.c`, on the part of a parsed message
that they read and write.  The crypto library is a parameter (`Dst`): what a context answers
when it is created, fed and asked to verify is arbitrary.  Key rings are lists of keys; a
search also drops the keys that `cleanup_ring` would remove.

Every early return of the source is kept, with exactly the fields it records: which of them
record a status in `tsigstatus` and which do not is what the identity check later depends on. -/

namespace Bind9

/-- `dst_key_alg` of the keys TSIG and SIG(0) can use. -/
inductive DstAlg where
  | hmacmd5
  | hmacsha1
  | hmacsha224
  | hmacsha256
  | hmacsha384
  | hmacsha512
  | gssapi
  | rsa
  | dsa
  | eccgost
  | ecdsa256
  | ecdsa384
  | dh
deriving DecidableEq, Repr

/-- The algorithms whose signature length is checked. -/
def DstAlg.isHmac : DstAlg → Bool
  | .hmacmd5 | .hmacsha1 | .hmacsha224 | .hmacsha256 | .hmacsha384 | .hmacsha512 => true
  | _ => false

structure DstKey where
  alg : DstAlg
  name : Name
  size : ℕ
  bits : ℕ
  id : ℕ
  proto : ℕ
  secret : Bytes
deriving DecidableEq, Repr

/-- `dst_key_sigsize`; `none` for `DST_R_UNSUPPORTEDALG`. -/
def DstKey.sigsize (k : DstKey) : Option ℕ :=
  match k.alg with
  | .rsa => some ((k.size + 7) / 8)
  | .dsa => some 40
  | .eccgost => some 64
  | .ecdsa256 => some 64
  | .ecdsa384 => some 96
  | .hmacmd5 => some 16
  | .hmacsha1 => some 20
  | .hmacsha224 => some 28
  | .hmacsha256 => some 32
  | .hmacsha384 => some 48
  | .hmacsha512 => some 64
  | .gssapi => some 128
  | .dh => none

/-- The crypto library: what `dst_context_create2`, `dst_context_adddata` (after the bytes
already digested) and `dst_context_verify` return. -/
structure Dst where
  create : DstKey → Result
  adddata : DstKey → Bytes → Bytes → Result
  verify : DstKey → Bytes → Bytes → Result

/-- Feed the chunks to a context, one `dst_context_adddata` each. -/
def Dst.addAll (dst : Dst) (key : DstKey) : List Bytes → Bytes → Except Result Bytes
  | [], acc => .ok acc
  | c :: cs, acc =>
    match dst.adddata key acc c with
    | .success => dst.addAll key cs (acc ++ c)
    | r => .error r

/-- A `dns_tsigkey_t`; `hasKey` is false when its `key` is `NULL`. -/
structure TsigKey where
  key : DstKey
  name : Name
  algorithm : Name
  creator : Option Name
  generated : Bool
  inception : ℕ
  expire : ℕ
  refs : ℕ
  hasKey : Bool := true
deriving DecidableEq, Repr

def TsigKey.identity (k : TsigKey) : Option Name := if k.generated then k.creator else some k.name

def serialLt (a b : ℕ) : Bool :=
  if a = b ^^^ 0x80000000 then false else decide (0x80000000 ≤ (a + 0x100000000 - b) % 0x100000000)

/-- `dns_tsigkey_find`, with the removals of `cleanup_ring`. -/
def tsigkeyFind (now : ℕ) (name algorithm : Name) (ring : List TsigKey) : Option TsigKey :=
  let ring := ring.filter (fun k =>
    !(k.generated && k.refs == 1 && k.inception != k.expire && decide (k.expire < now)))
  match ring.find? (fun k => k.name.equal name) with
  | none => none
  | some k =>
    if !k.algorithm.equal algorithm then none
    else if k.inception != k.expire && serialLt k.expire now then none
    else some k

/-! ### Messages -/

/-- A `dns_rdata_any_tsig_t`; `siglen` and `otherlen` are the lengths. -/
structure TsigRdata where
  algorithm : Name
  timesigned : ℕ
  fudge : ℕ
  signature : Bytes
  originalid : ℕ
  error : ℕ
  other : Bytes
deriving DecidableEq, Repr

/-- The TSIG record of a message: owner, class, TTL, contents. -/
structure TsigRR where
  name : Name
  rdclass : ℕ
  ttl : ℕ
  rdata : TsigRdata
deriving DecidableEq, Repr

/-- A `dns_rdata_sig_t`, with the rdata bytes in front of the signature. -/
structure SigRdata where
  algorithm : ℕ
  labels : ℕ
  timeexpire : ℕ
  timesigned : ℕ
  keyid : ℕ
  signer : Name
  head : Bytes
  signature : Bytes
deriving DecidableEq, Repr

/-- The part of a `dns_message_t` that has to do with signatures. -/
structure Message where
  response : Bool
  saved : Bytes
  sigstart : ℕ
  tsig : Option TsigRR
  sig0 : Option SigRdata
  querytsig : Option TsigRdata
  query : Option Bytes
  tcpContinuation : Bool
  verifiedSig : Bool
  verifyAttempted : Bool
  tsigstatus : ℕ
  sig0status : ℕ
  timeadjust : ℕ
  tsigkey : Option TsigKey
  tsigctx : Option Bytes
deriving DecidableEq, Repr

def rcodeNoerror : ℕ := 0
def tsigerrorBadsig : ℕ := 16
def tsigerrorBadkey : ℕ := 17
def tsigerrorBadtime : ℕ := 18
def tsigerrorBadtrunc : ℕ := 22

/-- What verification takes from outside the message: the crypto library, the two key rings,
the clock, and what `dns_tsigkey_create` returns for an unknown key. -/
structure VerifyEnv where
  dst : Dst
  ring1 : Option (List TsigKey)
  ring2 : Option (List TsigKey)
  now : ℕ
  create : Result

/-! ### What is digested -/

def put16 (v : ℕ) : Bytes := [UInt8.ofNat (v / 256), UInt8.ofNat v]
def put32 (v : ℕ) : Bytes := put16 (v / 65536) ++ put16 v
def put48 (v : ℕ) : Bytes := put16 (v / 0x100000000) ++ put32 v

/-- The header with the original ID and one additional record less. -/
def tsigHeader (saved : Bytes) (originalid : ℕ) : Bytes :=
  let arcount := (saved.getD 10 0).toNat * 256 + (saved.getD 11 0).toNat
  put16 originalid ++ (saved.take 10).drop 2 ++ put16 ((arcount + 65535) % 65536)

variable (env : VerifyEnv) (msg : Message)

/-- The chunks digested for the signature of a query, or of a response to `querytsig`. -/
def tsigChunks (t : TsigRR) (k : TsigKey) : List Bytes :=
  (match msg.response, msg.querytsig with
    | true, some q =>
      put16 q.signature.length :: if 0 < q.signature.length then [q.signature] else []
    | _, _ => []) ++
  [tsigHeader msg.saved t.rdata.originalid,
    (msg.saved.take msg.sigstart).drop 12,
    k.name.ndata,
    put16 t.rdclass ++ put32 t.ttl,
    k.algorithm.ndata,
    put48 t.rdata.timesigned ++ put16 t.rdata.fudge ++ put16 t.rdata.error ++
      put16 t.rdata.other.length] ++
  (if 0 < t.rdata.other.length then [t.rdata.other] else [])

/-- The digest of a list of chunks in a new context, and the answer on a signature. -/
def Dst.check (dst : Dst) (key : DstKey) (chunks : List Bytes) (sig : Bytes) : Result :=
  match dst.create key with
  | .success =>
    match dst.addAll key chunks [] with
    | .error r => r
    | .ok acc => dst.verify key acc sig
  | r => r

/-! ### Verification -/

/-- `now + msg->timeadjust`, 32 bits wide. -/
def adjustedNow : ℕ := (env.now + msg.timeadjust) % 0x100000000

/-- `timesigned + fudge` has passed. -/
def sigExpired (t : TsigRdata) : Bool :=
  decide (t.timesigned + t.fudge < adjustedNow env msg)

/-- `timesigned - fudge`, in unsigned 64-bit arithmetic, has not come. -/
def sigInFuture (t : TsigRdata) : Bool :=
  decide (adjustedNow env msg < (t.timesigned + 2 ^ 64 - t.fudge) % 2 ^ 64)

/-- The outcome of the check of the signature length. -/
inductive LengthCheck where
  | ok
  | bad (r : Result)
  | badtrunc
deriving DecidableEq, Repr

/-- The digest length checks of `dns_tsig_verify`. -/
def checkLength (key : DstKey) (siglen : ℕ) : LengthCheck :=
  match key.sigsize with
  | none => .bad .unsupportedalg
  | some size =>
    if !key.alg.isHmac then .ok
    else if size < siglen then .bad .formerr
    else if 0 < siglen ∧ (siglen < 10 ∨ siglen < (size + 1) / 2) then .bad .formerr
    else if 0 < siglen ∧ key.bits ≠ 0 ∧ siglen < (key.bits + 1) / 8 then .badtrunc
    else if 0 < siglen ∧ key.bits = 0 ∧ siglen < size then .badtrunc
    else .ok

/-- The end of `dns_tsig_verify`, after the signature was found right (or empty next to an
error that allows it). -/
def verifyError (t : TsigRdata) : Message × Result :=
  let msg := { msg with tsigstatus := rcodeNoerror }
  if t.error ≠ rcodeNoerror then
    if t.error = tsigerrorBadtime then (msg, .clockskew) else (msg, .tsigerrorset)
  else ({ msg with verifiedSig := true }, .success)

/-- `dns_tsig_verify` from the time check on, with the key found. -/
def verifyWithKey (t : TsigRR) (k : TsigKey) : Message × Result :=
  let siglen := t.rdata.signature.length
  if sigExpired env msg t.rdata then ({ msg with tsigstatus := tsigerrorBadtime }, .clockskew)
  else if sigInFuture env msg t.rdata then
    ({ msg with tsigstatus := tsigerrorBadtime }, .clockskew)
  else match checkLength k.key siglen with
    | .bad r => (msg, r)
    | .badtrunc => ({ msg with tsigstatus := tsigerrorBadtrunc }, .tsigverifyfailure)
    | .ok =>
      if 0 < siglen then
        match env.dst.check k.key (tsigChunks msg t k) t.rdata.signature with
        | .success => verifyError msg t.rdata
        | .verifyfailure => ({ msg with tsigstatus := tsigerrorBadsig }, .tsigverifyfailure)
        | r => (msg, r)
      else if t.rdata.error ≠ tsigerrorBadsig ∧ t.rdata.error ≠ tsigerrorBadkey then
        ({ msg with tsigstatus := tsigerrorBadsig }, .tsigverifyfailure)
      else verifyError msg t.rdata

/-- The search in both rings. -/
def findInRings (t : TsigRR) : Option TsigKey :=
  match env.ring1.bind (tsigkeyFind env.now t.name t.rdata.algorithm) with
  | some k => some k
  | none => env.ring2.bind (tsigkeyFind env.now t.name t.rdata.algorithm)

/-- The key `dns_tsigkey_create` makes for a key name it does not know; it has no `dst_key_t`,
and nothing verifies with it. -/
def unknownKey (t : TsigRR) : TsigKey where
  key := ⟨.hmacmd5, t.name, 0, 0, 0, 0, []⟩
  name := t.name.lower
  algorithm := t.rdata.algorithm.lower
  creator := none
  generated := false
  inception := env.now
  expire := env.now
  refs := 1
  hasKey := false

/-- The chunks digested for a continuation message. -/
def tcpChunks : List Bytes :=
  match msg.tsig with
  | none => [msg.saved.take 12, msg.saved.drop 12]
  | some t => [tsigHeader msg.saved t.rdata.originalid, (msg.saved.take msg.sigstart).drop 12,
      put48 t.rdata.timesigned ++ put16 t.rdata.fudge]

/-- The context of a continuation message: the one under way, or a new one that has digested
the signature of the query. -/
def tcpContext (dst : Dst) (key : DstKey) (q : TsigRdata) (ctx : Option Bytes) :
    Except Result Bytes :=
  match ctx with
  | some acc => .ok acc
  | none =>
    match dst.create key with
    | .success => dst.addAll key
        (put16 q.signature.length :: if 0 < q.signature.length then [q.signature] else []) []
    | r => .error r

/-- The digest and signature check of `tsig_verify_tcp`. -/
def tcpDigest (q : TsigRdata) (k : TsigKey) : Message × Result :=
  match tcpContext env.dst k.key q msg.tsigctx with
  | .error r => ({ msg with tsigctx := none }, r)
  | .ok acc =>
    match env.dst.addAll k.key (tcpChunks msg) acc with
    | .error r => ({ msg with tsigctx := none }, r)
    | .ok acc =>
      match msg.tsig with
      | none => ({ msg with tsigctx := some acc, tsigstatus := rcodeNoerror }, .success)
      | some t =>
        let msg := { msg with tsigctx := none }
        if t.rdata.signature.length = 0 then
          if t.rdata.error ≠ rcodeNoerror then
            if t.rdata.error = tsigerrorBadtime then (msg, .clockskew)
            else (msg, .tsigerrorset)
          else (msg, .tsigverifyfailure)
        else match env.dst.verify k.key acc t.rdata.signature with
          | .success => ({ msg with tsigstatus := rcodeNoerror }, .success)
          | .verifyfailure =>
            ({ msg with tsigstatus := tsigerrorBadsig }, .tsigverifyfailure)
          | r => (msg, r)

def tsigVerifyTcp (q : TsigRdata) (k : TsigKey) :
    Message × Result :=
  if !msg.response then (msg, .expectedresponse)
  else match msg.tsig with
    | none => tcpDigest env msg q k
    | some t =>
      if !t.name.equal k.name || !t.rdata.algorithm.equal q.algorithm then
        ({ msg with tsigstatus := tsigerrorBadkey }, .tsigverifyfailure)
      else if sigExpired env msg t.rdata then
        ({ msg with tsigstatus := tsigerrorBadtime }, .clockskew)
      else if sigInFuture env msg t.rdata then
        ({ msg with tsigstatus := tsigerrorBadtime }, .clockskew)
      else tcpDigest env msg q k

/-- `dns_tsig_verify`, with the message still to be marked as tried. -/
def tsigVerifyTried : Message × Result :=
  if msg.tcpContinuation then
    match msg.tsigkey, msg.querytsig with
    | some k, some q => tsigVerifyTcp env msg q k
    | _, _ => (msg, .unexpectedtsig)
  else match msg.tsig with
    | none => (msg, .expectedtsig)
    | some t =>
      if msg.response then
        match msg.tsigkey, msg.querytsig with
        | some k, some q =>
          if !t.name.equal k.name || !t.rdata.algorithm.equal q.algorithm then
            ({ msg with tsigstatus := tsigerrorBadkey }, .tsigverifyfailure)
          else verifyWithKey env msg t k
        | _, _ => (msg, .unexpectedtsig)
      else match msg.tsigkey with
        | some k => verifyWithKey env msg t k
        | none =>
          match findInRings env t with
          | some k => verifyWithKey env { msg with tsigkey := some k } t k
          | none =>
            let msg := { msg with tsigstatus := tsigerrorBadkey }
            if env.create ≠ .success then (msg, env.create)
            else ({ msg with tsigkey := some (unknownKey env t) }, .tsigverifyfailure)

def tsigVerify : Message × Result :=
  tsigVerifyTried env { msg with verifyAttempted := true }

end Bind9
