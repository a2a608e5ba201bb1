import Bind9.Tsig

/-! # Who signed a message

`dns_message_resetsig`, `dns_message_checksig`, `dns_message_signer` of `lib/dns/message.c` and
`dns_dnssec_verifymessage` of `lib/dns/dnssec.c`.  `client_request` in `bin/named/client.c`
calls the first two for a view and then takes the name that the third returns with
`ISC_R_SUCCESS` as the signer of the request. -/

namespace Bind9

/-- A key record of the view's answer for the signer of a SIG(0). -/
structure KeyRdata where
  rdata : Bytes
deriving DecidableEq, Repr

/-- What a view contributes: its key rings, the answer of `dns_view_simplefind` for KEY records
(the records and whether they are trusted as secure), and `dst_key_fromdns`. -/
structure View where
  statickeys : Option (List TsigKey)
  dynamickeys : Option (List TsigKey)
  simplefind : Name → Option (List KeyRdata × Bool)
  fromdns : Name → KeyRdata → Option DstKey

/-- What checking a signature takes from outside the message and the view. -/
structure SigEnv where
  dst : Dst
  now : ℕ
  create : Result
  view : Option View

def Message.resetsig (msg : Message) : Message :=
  { msg with
    verifiedSig := false
    verifyAttempted := false
    tsigstatus := rcodeNoerror
    sig0status := rcodeNoerror
    timeadjust := 0
    tsigkey := none }

/-- The header with one additional record less. -/
def sig0Header (saved : Bytes) : Bytes :=
  let arcount := (saved.getD 10 0).toNat * 256 + (saved.getD 11 0).toNat
  saved.take 10 ++ put16 ((arcount + 65535) % 65536)

def sig0Chunks (msg : Message) (sig : SigRdata) : List Bytes :=
  [sig.head] ++ (if msg.response then msg.query.toList else []) ++
    [sig0Header msg.saved, (msg.saved.take msg.sigstart).drop 12]

def verifymessage (dst : Dst) (now : ℕ) (msg : Message) (sig : SigRdata) (key : DstKey) :
    Message × Result :=
  let msg := { msg with verifyAttempted := true }
  if msg.response && msg.query.isNone then (msg, .unexpectedtsig)
  else if sig.labels ≠ 0 then (msg, .siginvalid)
  else if serialLt sig.timeexpire sig.timesigned then
    ({ msg with sig0status := tsigerrorBadtime }, .siginvalid)
  else if serialLt now sig.timesigned then
    ({ msg with sig0status := tsigerrorBadtime }, .sigfuture)
  else if serialLt sig.timeexpire now then
    ({ msg with sig0status := tsigerrorBadtime }, .sigexpired)
  else if !key.name.equal sig.signer then
    ({ msg with sig0status := tsigerrorBadkey }, .siginvalid)
  else match dst.create key with
    | .success =>
      match dst.addAll key (sig0Chunks msg sig) [] with
      | .error r => (msg, r)
      | .ok acc =>
        match dst.verify key acc sig.signature with
        | .success => ({ msg with verifiedSig := true }, .success)
        | r => ({ msg with sig0status := tsigerrorBadsig }, r)
    | r => (msg, r)

def DNS_KEYPROTO_DNSSEC : ℕ := 3
def DNS_KEYPROTO_ANY : ℕ := 255

/-- The key number that `dst_key_alg` has on the wire is compared with the one in the SIG(0). -/
def keyFits (algNumber : DstAlg → ℕ) (sig : SigRdata) (key : DstKey) : Bool :=
  algNumber key.alg == sig.algorithm && key.id == sig.keyid &&
    (key.proto == DNS_KEYPROTO_DNSSEC || key.proto == DNS_KEYPROTO_ANY)

/-- The loop over the KEY records in `dns_message_checksig`. -/
def checkKeys (dst : Dst) (now : ℕ) (algNumber : DstAlg → ℕ) (fromdns : KeyRdata → Option DstKey)
    (sig : SigRdata) : List KeyRdata → Message → Message × Result
  | [], msg => (msg, .keyunauthorized)
  | rd :: rest, msg =>
    match fromdns rd with
    | none => checkKeys dst now algNumber fromdns sig rest msg
    | some key =>
      if keyFits algNumber sig key then
        match verifymessage dst now msg sig key with
        | (msg, .success) => (msg, .success)
        | (msg, _) => checkKeys dst now algNumber fromdns sig rest msg
      else checkKeys dst now algNumber fromdns sig rest msg

def Message.checksig (env : SigEnv) (algNumber : DstAlg → ℕ) (msg : Message) : Message × Result :=
  if msg.tsigkey.isNone && msg.tsig.isNone && msg.sig0.isNone then (msg, .success)
  else if msg.tsigkey.isSome || msg.tsig.isSome then
    match env.view with
    | some view => tsigVerify ⟨env.dst, view.statickeys, view.dynamickeys, env.now, env.create⟩ msg
    | none => tsigVerify ⟨env.dst, none, none, env.now, env.create⟩ msg
  else match msg.sig0 with
    | none => (msg, .success)
    | some sig =>
      if sig.head.length + sig.signature.length = 0 then (msg, .unexpectedend)
      else match env.view with
        | none => (msg, .keyunauthorized)
        | some view =>
          match view.simplefind sig.signer with
          | none => (msg, .keyunauthorized)
          | some (keys, secure) =>
            if !secure then (msg, .keyunauthorized)
            else checkKeys env.dst env.now algNumber (view.fromdns sig.signer) sig keys msg

/-- `dns_message_signer`: the result and the name stored in `signer`; `none` when the `INSIST`
on a missing key fails.  `mem` tells whether the buffer for the name can be allocated. -/
def Message.signer (mem : Bool) (msg : Message) : Option (Result × Option Name) :=
  if msg.tsig.isNone && msg.sig0.isNone then some (.notfound, none)
  else if !msg.verifyAttempted then some (.notverifiedyet, none)
  else if !mem then some (.nomemory, none)
  else match msg.sig0, msg.tsig with
    | some sig, _ =>
      some (if msg.verifiedSig && msg.sig0status == rcodeNoerror then .success else .siginvalid,
        some sig.signer)
    | none, none => some (.notfound, none)
    | none, some t =>
      let result : Result :=
        if msg.tsigstatus ≠ rcodeNoerror then .tsigverifyfailure
        else if t.rdata.error ≠ rcodeNoerror then .tsigerrorset
        else .success
      match msg.tsigkey with
      | none => if result = .success then none else some (result, none)
      | some k =>
        match k.identity with
        | some name => some (result, some name)
        | none => some (if result = .success then .noidentity else result, some k.name)

end Bind9
