import Bind9.SignerIdentity

/-! # TSIG signatures of outgoing messages

`dns_tsig_sign` of `lib/dns/tsig.c`, on the part of a rendered message that it reads, and what
`dns_message_reply` of `lib/dns/message.c` leaves of the TSIG of a request.  The crypto library is
a parameter, as in the verification: `sign` is `dst_context_sign` into a buffer of the given size. -/

namespace Bind9

/-- What signing takes from outside the message: the crypto library and the clock. -/
structure SignEnv where
  dst : Dst
  sign : DstKey → Bytes → ℕ → Except Result Bytes
  now : ℕ

/-- A rendered message that has not been signed yet; `flags` is the second word of the header, with
the opcode and the rcode, and `body` is what stands behind the header. -/
structure Outgoing where
  id : ℕ
  flags : ℕ
  qdcount : ℕ
  ancount : ℕ
  nscount : ℕ
  arcount : ℕ
  body : Bytes
  tcpContinuation : Bool
  querytsig : Option TsigRdata
  querytsigstatus : ℕ
  timeadjust : ℕ
  tsigkey : TsigKey
deriving DecidableEq, Repr

def Outgoing.response (m : Outgoing) : Bool := m.flags.testBit 15

def Outgoing.header (m : Outgoing) : Bytes :=
  put16 m.id ++ (put16 m.flags ++ (put16 m.qdcount ++ (put16 m.ancount ++ (put16 m.nscount ++ put16 m.arcount))))

def tsigFudge : ℕ := 300

def tsigClassTtl : Bytes := put16 255 ++ put32 0

/-- What `dns_tsig_sign` digests; `q` is the TSIG of the query if this is a response. -/
def signChunks (m : Outgoing) (q : Option TsigRdata) (timesigned error : ℕ) (other : Bytes) :
    List Bytes :=
  (match q with
    | some q => [put16 q.signature.length ++ q.signature]
    | none => []) ++
  [m.header, m.body] ++
  (if m.tcpContinuation then [] else [m.tsigkey.name.ndata, tsigClassTtl, m.tsigkey.algorithm.ndata]) ++
  [put48 timesigned ++ put16 tsigFudge] ++
  (if m.tcpContinuation then []
    else (put16 error ++ put16 other.length) :: if 0 < other.length then [other] else [])

def signLength (key : DstKey) (q : Option TsigRdata) (maclen : ℕ) : ℕ :=
  if key.bits ≠ 0 then
    min (max ((key.bits + 1) / 8) (match q with | some q => q.signature.length | none => 0)) maclen
  else maclen

/-- The signature: the digest in a new context, signed and cut.  The length and the signature of the
query have to fit into `data`, 128 bytes. -/
def signMac (env : SignEnv) (m : Outgoing) (q : Option TsigRdata) (timesigned error : ℕ) (other : Bytes) :
    Except Result Bytes :=
  let key := m.tsigkey.key
  match env.dst.create key with
  | .success =>
    if 126 < (match q with | some q => q.signature.length | none => 0) then .error .nospace
    else match env.dst.addAll key (signChunks m q timesigned error other) [] with
      | .error r => .error r
      | .ok acc =>
        match key.sigsize with
        | none => .error .unsupportedalg
        | some size =>
          match env.sign key acc size with
          | .error r => .error r
          | .ok mac => .ok (mac.take (signLength key q mac.length))
  | r => .error r

def TsigRdata.wireLength (t : TsigRdata) : ℕ :=
  t.algorithm.length + 10 + t.signature.length + 6 + t.other.length

/-- The end of `dns_tsig_sign`: the record, if its rdata fits into 512 bytes. -/
def signFinish (t : TsigRdata) (name : Name) : Except Result TsigRR :=
  if 512 < t.wireLength then .error .nospace else .ok ⟨name, 255, 0, t⟩

/-- `dns_tsig_sign`: the TSIG record of the message.  A `BADTIME` error carries the time of the
server in the other data and the time of the query where its own time would be. -/
def tsigSign (env : SignEnv) (m : Outgoing) : Except Result TsigRR :=
  if m.response && m.querytsig.isNone then .error .expectedtsig
  else
    let q := if m.response then m.querytsig else none
    let now := (env.now + m.timeadjust) % 2 ^ 32
    let error := if m.response then m.querytsigstatus else rcodeNoerror
    let other := if error = tsigerrorBadtime then put48 now else []
    if m.tsigkey.hasKey && error != tsigerrorBadsig then do
      let timesigned :=
        if error = tsigerrorBadtime then (match q with | some q => q.timesigned | none => now) else now
      let signature ← signMac env m q timesigned error other
      signFinish ⟨m.tsigkey.algorithm, timesigned, tsigFudge, signature, m.id, error, other⟩ m.tsigkey.name
    else signFinish ⟨m.tsigkey.algorithm, now, tsigFudge, [], m.id, error, other⟩ m.tsigkey.name

/-- The reply `m` to a request, with what `dns_message_reply` takes from the request for its TSIG:
none if the request has no key. -/
def Outgoing.replying (m : Outgoing) (msg : Message) : Option Outgoing :=
  match msg.tsigkey with
  | none => none
  | some k => some { m with
      flags := m.flags ||| 0x8000
      tcpContinuation := msg.tcpContinuation
      querytsig := (match msg.tsig with | some t => some t.rdata | none => msg.querytsig)
      querytsigstatus := msg.tsigstatus
      timeadjust := msg.timeadjust
      tsigkey := k }

end Bind9
