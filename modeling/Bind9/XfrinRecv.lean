import Bind9.DbDiffExact
import Bind9.MessageSig
import Bind9.XfrinDelta

/-! # The messages of an incoming transfer

`xfrin_recv_done` of `lib/dns/xfrin.c`: one message of a response is parsed, its signature is checked, and its records
go through `xfr_rr`.  A message that bad luck or an old server made useless starts the transfer again with an AXFR
request; a whole zone replaces the old one at the end (`zone_replacedb` of `lib/dns/zone.c`).

Connecting and sending are calls that may fail, like those of `Xfrin`, and the events between two messages are handled
with the first of them. -/

namespace Bind9.Xfrin

open Diff ZoneDb Journal Serial

/-- What the code takes from the zone and from outside. -/
structure RecvEnv extends xfrin : Env where
  /-- `dst_key_alg` as a number. -/
  algNumber : DstAlg → ℕ
  /-- `DNS_ZONEOPT_IXFRFROMDIFFS`. -/
  ixfrFromDiffs : Bool
  /-- A zone with masters, and a zone of keys. -/
  slave : Bool
  keyzone : Bool

/-- A message: what `dns_message_parse` finds in it, what `dns_message_checksig` needs for it, and the TSIG of the
request that is sent if the transfer starts again. -/
structure Received where
  parse : Result
  rcode : ℕ
  id : UInt16
  aa : Bool
  response : Bool
  answer : List Rr
  saved : Bytes
  sigstart : ℕ
  tsig : Option TsigRR
  sig0 : Option SigRdata
  sigenv : SigEnv
  requery : Option TsigRdata

/-- The rest of `dns_xfrin_ctx_t`; `loaded` says that the zone has a database, and `aborted` that an assertion
failed. -/
structure Peer where
  world : World
  id : UInt16
  tsigkey : Option TsigKey
  lasttsig : Option TsigRdata
  tsigctx : Option Bytes
  sincetsig : ℕ
  nmsg : UInt32
  loaded : Bool
  shuttingdown : Bool
  aborted : Bool

/-- The transfer. -/
abbrev Peer.xfr (p : Peer) : Ctx := p.world.xfr

/-- What the functions of the connection do. -/
abbrev RecvM := EStateM Stop Peer

/-- A step of the transfer. -/
def liftXfr {α : Type} (x : XfrM α) : RecvM α := fun p =>
  match x p.world with
  | .ok a w => .ok a { p with world := w }
  | .error e w => .error e { p with world := w }

def recvFail {α : Type} (r : Result) : RecvM α := throw (.result r)

variable (env : RecvEnv)

/-! ### A whole zone -/

def zoneRrs (z : Zone) : List Rr :=
  (z.map Prod.fst).dedup.flatMap (fun k => (z.find k).elim [] (fun s =>
    s.rdata.1.map (fun r => ⟨k.name, s.ttl, env.rdclass, k.type.base, r⟩)))

/-- The tuples that `dns_db_diff` writes: those of `dbDiffx_exact`, in the order of the journal. -/
def replaceDiff (new old : Zone) : Tuples :=
  env.qsort.sort ixfrOrder (DbDiff.exactDiff env.ops (zoneRrs env new) (zoneRrs env old))

/-- `dns_db_diff` of the new database and that of the zone. -/
def dbDiff (new : Zone) : XfrM Unit := do
  let s ← context
  runIf (decide (replaceDiff env new s.zone ≠ [])) (do
    -- opening the journal and writing the transaction
    call
    update (fun s => { s with journal := some (some (replaceDiff env new s.zone)) })
    journalCommit)

/-- The branch of `zone_replacedb` that writes the differences to the journal. -/
def replaceJournal (new : Zone) : XfrM Unit := do
  let s ← context
  let serial ← check ((zoneSerial env.origin new).elim (stop .notfound) .ok)
  -- `RUNTIME_CHECK`
  let oldserial ← check ((zoneSerial env.origin s.zone).elim (.error .assertion) .ok)
  if env.slave && !gt serial oldserial then fail .range
  else dbDiff env new

/-- The branch that removes the journal; a failure to do so is only logged. -/
def removeJournal : XfrM Unit := do
  let f ← nextFault
  update (fun s => { s with journalfile := if f.isSome then s.journalfile else s.journalfile.map (fun _ => []) })

/-- The number of records at the origin. -/
def apexCount (z : Zone) (type : UInt16) : ℕ := (z.find ⟨env.origin.lower, type, 0⟩).elim 0 (fun s => s.rdata.1.length)

/-- `zone_replacedb` up to the new database being attached; `check_nsec3param` is a call that may fail. -/
def replaceCheck (loaded : Bool) (new : Zone) : XfrM Unit := do
  if apexCount env new soa ≠ 1 then fail .badzone
  else if apexCount env new ns = 0 ∧ env.keyzone = false then fail .badzone
  else do
    call
    let s ← context
    if loaded && s.journalfile.isSome && env.ixfrFromDiffs && !env.forced then replaceJournal env new
    else removeJournal

def axfrFinalize : RecvM Unit := do
  let p ← get
  let new := p.xfr.db.loading.getD []
  liftXfr (do
    replaceCheck env p.loaded new
    update (fun s => { s with zone := new }))
  modify (fun p => { p with loaded := true })

/-! ### Requests -/

def Ctx.database (s : Ctx) : Option Zone :=
  match s.db with
  | .null => none
  | .zone => some s.zone
  | .load z => some z

def requestSerial : XfrM Unit := do
  let s ← context
  runIf (decide (s.reqtype ≠ .axfr)) (do
    insist s.database.isSome
    let serial ← check ((s.database.bind (zoneSerial env.origin)).elim (stop .notfound) .ok)
    update (fun s => { s with
      requestSerial := serial
      currentSerial := if s.reqtype = .ixfr then serial else s.currentSerial }))

def sendRequest (requery : Option TsigRdata) : RecvM Unit := do
  liftXfr (do
    call
    requestSerial env
    update (fun s => { s with checkid := true }))
  modify (fun p => { p with id := p.id + 1, nmsg := 0, tsigctx := none })
  -- `render` signs the request
  liftXfr call
  modify (fun p => { p with lasttsig := requery })
  liftXfr call

def reset : XfrM Unit := update (fun s => { s with diff := [], difflen := 0, journal := none, ver := none })

variable (m : Received)

def tryAxfr : RecvM Unit := do
  liftXfr (do
    reset
    update (fun s => { s with reqtype := .soa, state := .soaquery }))
  modify (fun p => { p with lasttsig := none })
  sendRequest env m.requery

/-! ### A message -/

/-- The message with the key, the TSIG and the digest that it is checked with. -/
def Peer.message (p : Peer) (m : Received) : Message where
  response := m.response
  saved := m.saved
  sigstart := m.sigstart
  tsig := m.tsig
  sig0 := m.sig0
  querytsig := p.lasttsig
  query := none
  tcpContinuation := decide (0 < p.nmsg)
  verifiedSig := false
  verifyAttempted := false
  tsigstatus := rcodeNoerror
  sig0status := rcodeNoerror
  timeadjust := 0
  tsigkey := p.tsigkey
  tsigctx := p.tsigctx

/-- The result for a message that was not expected. -/
def Received.bad : Result :=
  if m.parse ≠ .success then m.parse else if m.rcode ≠ 0 then .other (3 * 2 ^ 16 + m.rcode) else .unexpectedid

/-- `xfrin_recv_done` up to the records: the message if its records are to be taken. -/
def recvHead : RecvM (Option Message) := do
  let p ← get
  if p.shuttingdown then pure none
  else do
    liftXfr call
    modify (fun p => { p with tsigctx := none })
    if m.parse ≠ .success ∨ m.rcode ≠ 0 ∨ (p.xfr.checkid = true ∧ m.id ≠ p.id) then
      if p.xfr.reqtype = .axfr ∨ p.xfr.reqtype = .soa then recvFail m.bad
      else do
        tryAxfr env m
        pure none
    else if p.xfr.reqtype = .ixfr ∧ p.xfr.state = .initialsoa ∧ m.answer = [] then do
      tryAxfr env m
      pure none
    else if p.xfr.reqtype = .soa ∧ m.aa = false then recvFail .notauthoritative
    else do
      let c := (p.message m).checksig m.sigenv env.algNumber
      if c.2 ≠ .success then recvFail c.2 else pure (some c.1)

/-- What the TSIG of a message, or its absence, leaves behind. -/
def recvTsig (msg : Message) : RecvM Unit := do
  if msg.tsig.isSome then do
    modify (fun p => { p with sincetsig := 0, lasttsig := none })
    liftXfr call
    modify (fun p => { p with lasttsig := msg.tsig.map TsigRR.rdata })
  else if msg.tsigkey.isSome then do
    let p ← get
    modify (fun p => { p with sincetsig := p.sincetsig + 1 })
    if 100 < p.sincetsig + 1 ∨ p.nmsg = 0 ∨ p.xfr.state = .axfrEnd ∨ p.xfr.state = .ixfrEnd then recvFail .expectedtsig
    else pure ()
  else pure ()

def recvDoneEnd : RecvM Unit := do
  liftXfr (update (fun s => { s with journal := none }))
  modify (fun p => { p with shuttingdown := true })

def recvSwitch (st : State) : RecvM Unit :=
  match st with
  | .gotsoa => do
    liftXfr (update (fun s => { s with reqtype := .axfr, state := .initialsoa }))
    sendRequest env m.requery
  | .axfrEnd => do
    axfrFinalize env
    recvDoneEnd
  | .ixfrEnd => recvDoneEnd
  | _ => liftXfr call

/-- `xfrin_recv_done` behind the records. -/
def recvTail (msg : Message) : RecvM Unit := do
  recvTsig msg
  modify (fun p => { p with nmsg := p.nmsg + 1, tsigctx := msg.tsigctx })
  let p ← get
  recvSwitch env m p.xfr.state

def recvRecords (n : ℕ) : RecvM (Option Message) := do
  let msg ← recvHead env m
  liftXfr (runIf msg.isSome (feed env.xfrin (m.answer.take n)))
  pure msg

/-- The message without failures being handled. -/
def recvMessage : RecvM Unit := do
  let msg ← recvRecords env m m.answer.length
  msg.elim (pure ()) (recvTail env m)

def xfrinFail (p : Peer) : Peer :=
  { p with world := { p.world with xfr := { p.xfr with journal := none } }, shuttingdown := true }

/-- `failure`, or the end of the program. -/
def handle {α : Type} : EStateM.Result Stop Peer α → Peer
  | .ok _ p => p
  | .error (.result _) p => xfrinFail p
  | .error _ p => { p with aborted := true }

def recvDone (p : Peer) : Peer := if p.aborted then p else handle (recvMessage env m p)

/-- The state at a moment in `xfrin_recv_done`: when `n` records of the message were taken. -/
def recvDuring (n : ℕ) (p : Peer) : Peer :=
  if p.aborted then p
  else
    match recvRecords env m n p with
    | .ok _ p' => p'
    | .error _ p' => p'

/-- The messages of a transfer, one after the other. -/
def recvAll (ms : List Received) (p : Peer) : Peer := ms.foldl (fun p m => recvDone env m p) p

/-- A message whose records are to be taken, with the state then. -/
def accepted (p : Peer) : Option Peer :=
  if p.aborted then none
  else
    match recvHead env m p with
    | .ok (some _) p' => some p'
    | _ => none

end Bind9.Xfrin
