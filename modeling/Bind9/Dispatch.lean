import Bind9.Region

/-! # Dispatches

`lib/dns/dispatch.c` for dispatches over UDP that share the QID table of a manager.  A dispatch has a lock, and the table has
one: a step is a section under the lock of the table, with what the function does around it under the lock of its dispatch.
Between two such sections of a function the dispatch stays locked (`Section`), and functions on other dispatches come in.

The addresses of dispatches, entries, events and sockets are of any type, and one that is free may be used again; using memory
that is free is `Stop.overrun`.  What comes from outside is in the actions: random numbers, packets, free addresses, and
whether calls of the socket library and of the pools succeed.  Callers have references to dispatches (`users`) and the events
that their tasks have given to them (`got`).  The socket table and the port tables are left out since they only choose ports:
any port may be chosen for an exclusive socket.  The buffers of packets are left out too. -/

namespace Bind9.Dispatch

open Function

/-- `isc_sockaddr_t`; the scope of an IPv4 address is 0. -/
structure SockAddr where
  inet6 : Bool
  addr : ℕ
  scope : ℕ
  port : ℕ
deriving DecidableEq, Repr

def SockAddr.eqaddr (a b : SockAddr) : Bool := a.inet6 == b.inet6 && a.addr == b.addr && a.scope == b.scope

def SockAddr.anyofpf (inet6 : Bool) : SockAddr := ⟨inet6, 0, 0, 0⟩

inductive SockType where
  | udp
  | netmap
deriving DecidableEq, Repr

inductive RecvResult where
  | success
  | canceled
  | error
deriving DecidableEq, Repr

structure Packet where
  address : SockAddr
  data : Bytes
deriving DecidableEq, Repr

/-- `dns_message_peekheader`: the id and the flags. -/
def peekheader (data : Bytes) : Option (ℕ × ℕ) :=
  if data.length < 12 then none
  else match data with
    | b0 :: b1 :: b2 :: b3 :: _ => some (b0.toNat * 256 + b1.toNat, (b2.toNat * 256 + b3.toNat) &&& 0x8ff0)
    | _ => none

/-- `DNS_MESSAGEFLAG_QR`. -/
def isResponse (flags : ℕ) : Bool := flags &&& 0x8000 != 0

/-- What an event says; the packets are numbered as they are received. -/
inductive Content where
  | packet (number : ℕ) (p : Packet)
  | failure (result : RecvResult)
  -- to the oldest query when there are too many sockets
  | canceled
  | failsafe
deriving DecidableEq, Repr

structure Entry (D S V : Type) where
  disp : D
  id : ℕ
  port : ℕ
  bucket : ℕ
  host : SockAddr
  itemOut : Bool
  dispsocket : Option S
  items : List V
deriving DecidableEq, Repr

/-- `dispsocket_t`; `receiving` is whether a receive is under way. -/
structure DispSocket (D E : Type) where
  disp : D
  host : SockAddr
  localport : ℕ
  resp : Option E
  receiving : Bool
deriving DecidableEq, Repr

structure Disp (S V : Type) where
  exclusive : Bool
  nolisten : Bool
  socktype : SockType
  loc : SockAddr
  localport : ℕ
  maxrequests : ℕ
  refcount : ℕ
  requests : ℕ
  shuttingDown : Bool
  shutdownOut : Bool
  recvPending : Bool
  failsafeEv : V
  activesockets : List S
  inactivesockets : List S
  nsockets : ℕ
deriving DecidableEq, Repr

/-- Where a function is that has a dispatch locked. -/
inductive Section (E S : Type) where
  | none
  -- `dns_dispatch_addresponse2` with an id
  | adding (dest : SockAddr) (id bucket localport : ℕ) (dispsocket : Option S)
  -- with its entry in the table
  | added (e : E)
  -- `udp_recv` before it restarts
  | restart (dispsock : Option S)
  -- `dns_dispatch_removeresponse` behind the entry
  | removed
deriving DecidableEq, Repr

structure State (D E S V : Type) where
  disp : D → Option (Disp S V)
  entry : E → Option (Entry D S V)
  dispsocket : S → Option (DispSocket D E)
  /-- The events outside the pool. -/
  event : V → Option Content
  table : ℕ → List E
  /-- The events in the queues of the tasks, and those with the callers. -/
  sent : List (V × E)
  got : List (V × E)
  sect : D → Section E S
  users : D → ℕ
  received : ℕ
  /-- What was received has gone to which entry. -/
  delivered : List (ℕ × E)

/-- The manager: the size of the table, the step between ids, the hash of an address, and the blackhole. -/
structure Manager where
  nbuckets : ℕ
  increment : ℕ
  sockaddrHash : SockAddr → ℕ
  blackhole : SockAddr → Bool
  nbuckets_pos : 0 < nbuckets

def init (D E S V : Type) : State D E S V :=
  ⟨fun _ => none, fun _ => none, fun _ => none, fun _ => none, fun _ => [], [], [], fun _ => .none, fun _ => 0, 0, []⟩

variable {D E S V : Type} [DecidableEq D] [DecidableEq E] [DecidableEq S] [DecidableEq V]

/-- Reading memory that may be free. -/
def deref {α : Type} (x : Option α) : Exec α :=
  match x with
  | some a => .ok a
  | none => .error .overrun

namespace State

variable (s : State D E S V)

def setDisp (d : D) (x : Disp S V) : State D E S V :=
  { s with disp := update s.disp d (some x) }

def setEntry (e : E) (x : Entry D S V) : State D E S V :=
  { s with entry := update s.entry e (some x) }

def setSocket (k : S) (x : Option (DispSocket D E)) : State D E S V :=
  { s with dispsocket := update s.dispsocket k x }

def setEvent (v : V) (c : Option Content) : State D E S V :=
  { s with event := update s.event v c }

def setSect (d : D) (p : Section E S) : State D E S V := { s with sect := update s.sect d p }

def setTable (b : ℕ) (l : List E) : State D E S V := { s with table := update s.table b l }

end State

/-! ### The table -/

def dnsHash (m : Manager) (dest : SockAddr) (id port : ℕ) : ℕ :=
  (m.sockaddrHash dest ^^^ ((id <<< 16) ||| port)) % 2 ^ 32 % m.nbuckets

variable (s : State D E S V)

def entrySearch (dest : SockAddr) (id port bucket : ℕ) : Option E :=
  (s.table bucket).find? (fun e =>
    match s.entry e with
    | some x => x.id == id && x.host == dest && x.port == port
    | none => false)

/-- The loop of `dns_dispatch_addresponse2` for an id, with its bucket. -/
def findId (m : Manager) (s : State D E S V) (dest : SockAddr) (port : ℕ) : ℕ → ℕ → Option (ℕ × ℕ)
  | 0, _ => none
  | i + 1, id =>
    let bucket := dnsHash m dest id port
    if entrySearch s dest id port bucket = none then some (id, bucket)
    else findId m s dest port i ((id + m.increment) % 65536)

/-- The entries as `linear_first` and `linear_next` go through them. -/
def linear (m : Manager) (s : State D E S V) : List E := (List.range m.nbuckets).flatMap s.table

/-- The first entry without an event out. -/
def firstFree (m : Manager) (s : State D E S V) : Option E :=
  (linear m s).find? (fun e =>
    match s.entry e with
    | some x => !x.itemOut
    | none => false)

/-! ### Events -/

def doCancel (m : Manager) (s : State D E S V) (d : D) : Exec (State D E S V) := do
  let x ← deref (s.disp d)
  if x.shutdownOut then return s
  else match firstFree m s with
    | none => return s
    | some e => do
      let y ← deref (s.entry e)
      let s := s.setEvent x.failsafeEv (some .failsafe)
      let s := s.setDisp d { x with shutdownOut := true }
      let s := s.setEntry e { y with itemOut := true }
      return { s with sent := s.sent ++ [(x.failsafeEv, e)] }

def freeDevent (d : D) (v : V) : Exec (State D E S V) := do
  let x ← deref (s.disp d)
  if x.failsafeEv = v then do
    require x.shutdownOut
    return s.setDisp d { x with shutdownOut := false }
  else do
    require (s.event v).isSome
    return s.setEvent v none

/-- An event with a content is sent to an entry, or queued there. -/
def deliver (e : E) (v : V) (c : Content) : Exec (State D E S V) := do
  let x ← deref (s.entry e)
  let s := s.setEvent v (some c)
  if x.itemOut then return s.setEntry e { x with items := x.items ++ [v] }
  else
    let s := s.setEntry e { x with itemOut := true }
    return { s with sent := s.sent ++ [(v, e)] }

/-! ### Sockets -/

def poolSocks : ℕ := 2048

def socksQuota : ℕ := 3072

def destroyDispsocket (d : D) (k : S) : Exec (State D E S V) := do
  let x ← deref (s.disp d)
  return (s.setDisp d { x with nsockets := x.nsockets - 1 }).setSocket k none

/-- The socket lets go of its entry, in `deactivate_dispsocket`. -/
def releaseEntry (k : S) : Exec (State D E S V) := do
  let y ← deref (s.dispsocket k)
  match y.resp with
  | some e => do
    let z ← deref (s.entry e)
    require (z.dispsocket == some k)
    return s.setEntry e { z with dispsocket := none }
  | none => return s

/-- `deactivate_dispsocket`, where the socket can be closed and used again or not. -/
def deactivateDispsocket (d : D) (k : S) (closed : Bool) : Exec (State D E S V) := do
  let s ← releaseEntry s k
  let x ← deref (s.disp d)
  let x := { x with activesockets := x.activesockets.erase k }
  if x.nsockets ≤ poolSocks ∧ closed = true then
    return s.setDisp d { x with inactivesockets := x.inactivesockets ++ [k] }
  else destroyDispsocket (s.setDisp d x) d k

/-- What `get_dispsocket` finds: no ports or no memory, no port that can be opened, or a port.  The socket is for the case that
there is none to be used again. -/
inductive Choice (S : Type) where
  | unavailable
  | failed
  | opened (k : S) (port : ℕ)
deriving DecidableEq, Repr

def getDispsocket (d : D) (dest : SockAddr) (choice : Choice S) :
    Exec (State D E S V × Option (S × ℕ)) := do
  let x ← deref (s.disp d)
  match choice, x.inactivesockets with
  | .unavailable, _ => return (s, none)
  | .failed, [] => return (s, none)
  | .failed, k :: rest => return (← destroyDispsocket (s.setDisp d { x with inactivesockets := rest }) d k, none)
  | .opened k port, [] =>
    let s := s.setDisp d { x with nsockets := x.nsockets + 1 }
    return (s.setSocket k (some ⟨d, dest, port, none, false⟩), some (k, port))
  | .opened _ port, k :: rest => do
    let y ← deref (s.dispsocket k)
    let s := s.setDisp d { x with inactivesockets := rest }
    return (s.setSocket k (some { y with host := dest, localport := port }), some (k, port))

/-- Whether a receive can be started: buffers and memory, and what the socket says. -/
inductive Start where
  | started
  | noMemory
  | refused
deriving DecidableEq, Repr

/-- `startrecv`, and whether its result is `ISC_R_SUCCESS`. -/
def startrecv (m : Manager) (s : State D E S V) (d : D) (dispsock : Option S) (start : Start) :
    Exec (State D E S V × Bool) := do
  let x ← deref (s.disp d)
  if x.shuttingDown || x.nolisten || (x.recvPending && dispsock.isNone) then return (s, true)
  else if start = .noMemory then return (s, false)
  else if x.exclusive && dispsock.isNone then return (s, true)
  else match dispsock, start with
    | some k, .started => do
      let y ← deref (s.dispsocket k)
      return (s.setSocket k (some { y with receiving := true }), true)
    | some _, _ => return (s, false)
    | none, .started => return (s.setDisp d { x with recvPending := true }, true)
    -- recover by cancel
    | none, _ => return (← doCancel m (s.setDisp d { x with shuttingDown := true }) d, true)

/-! ### `udp_recv` -/

structure Received where
  imported : Bool
  result : RecvResult
  packet : Packet
deriving DecidableEq, Repr

/-- What is to be done with a packet. -/
inductive Target (E : Type) where
  | drop
  | restart
  | deliver (e : E) (c : Content)
deriving DecidableEq, Repr

/-- Whether a dispatch may give a packet to an entry of another one. -/
def compatible (x x' : Disp S V) : Bool :=
  x.socktype == x'.socktype && x.loc.port == x'.loc.port && !(x'.loc.inet6 && !x.loc.inet6) &&
    ((SockAddr.anyofpf x'.loc.inet6).eqaddr x'.loc || (SockAddr.anyofpf x.loc.inet6).eqaddr x.loc)

def recvEntry (d : D) (x : Disp S V) (e : E) (p : Packet) : Exec (Target E) := do
  let z ← deref (s.entry e)
  if z.disp = d then return .deliver e (.packet s.received p)
  else do
    let x' ← deref (s.disp z.disp)
    return if compatible x x' then .deliver e (.packet s.received p) else .restart

/-- `udp_recv` from the packet on: `resp` is the entry of an exclusive socket. -/
def recvPacket (m : Manager) (s : State D E S V) (d : D) (x : Disp S V) (resp : Option E) (p : Packet) :
    Exec (Target E) :=
  if m.blackhole p.address then .ok .restart
  else match peekheader p.data with
    | none => .ok .restart
    | some (id, flags) =>
      if isResponse flags = false then .ok .restart
      else match resp with
        | none =>
          match entrySearch s p.address id x.localport (dnsHash m p.address id x.localport) with
          | none => .ok .restart
          | some e => recvEntry s d x e p
        | some e => do
          let z ← deref (s.entry e)
          if z.id = id ∧ p.address = z.host then recvEntry s d x e p else return .restart

/-- `udp_recv` behind its first lines. -/
def recvTarget (m : Manager) (s : State D E S V) (d : D) (dispsock : Option S) (r : Received) : Exec (Target E) := do
  let x ← deref (s.disp d)
  if x.shuttingDown then return .drop
  else if x.exclusive then
    match dispsock with
    | none => return .drop
    | some k => do
      let y ← deref (s.dispsocket k)
      let e ← deref y.resp
      if r.result ≠ .success then return .deliver e (.failure r.result)
      else recvPacket m s d x (some e) r.packet
  else if r.result ≠ .success then return .drop
  else recvPacket m s d x none r.packet

/-- The first lines of `udp_recv`: what it still has of its socket. -/
def recvBegin (d : D) (dispsock : Option S) (r : Received) (closed : Bool) :
    Exec (State D E S V × Option S) := do
  let x ← deref (s.disp d)
  match dispsock with
  | none =>
    if r.imported then return (s, none)
    else do
      require x.recvPending
      return (s.setDisp d { x with recvPending := false }, none)
  | some k => do
    let y ← deref (s.dispsocket k)
    let s := s.setSocket k (some { y with receiving := false })
    if r.result = .canceled ∨ y.resp = none then return (← deactivateDispsocket s d k closed, none)
    else return (s, some k)

/-- `udp_recv` up to its restart; `v` is the event that `allocate_devent` finds. -/
def udpRecv (m : Manager) (s : State D E S V) (d : D) (dispsock : Option S) (r : Received) (v : Option V) (closed : Bool) :
    Exec (State D E S V) := do
  let (s, k) ← recvBegin s d dispsock r closed
  let target ← recvTarget m s d k r
  let number := s.received
  let s := { s with received := number + 1 }
  match target, v with
  | .drop, _ => return s
  | .deliver e c, some v => do
    let s ← deliver s e v c
    return { s with delivered := s.delivered ++ [(number, e)] }.setSect d (.restart k)
  | _, _ => return s.setSect d (.restart k)

/-! ### Queries -/

/-- The oldest query is killed when there are too many sockets. -/
def killOldest (d : D) (v : Option V) : Exec (State D E S V) := do
  let x ← deref (s.disp d)
  if x.exclusive && decide (socksQuota < x.nsockets) then do
    let k ← deref x.activesockets.head?
    let y ← deref (s.dispsocket k)
    let s := s.setDisp d { x with activesockets := x.activesockets.tail ++ [k] }
    match y.resp, v with
    | some e, some v => do
      let z ← deref (s.entry e)
      if z.itemOut then return s else deliver s e v .canceled
    | _, _ => return s
  else return s

/-- `dns_dispatch_addresponse2` up to the search for an id that starts with a random one. -/
def addBegin (m : Manager) (s : State D E S V) (d : D) (dest : SockAddr) (random : ℕ) (choice : Choice S) (v : Option V) :
    Exec (State D E S V) := do
  let x ← deref (s.disp d)
  if x.shuttingDown || decide (x.maxrequests ≤ x.requests) then return s
  else do
    let s ← killOldest s d v
    if x.exclusive then do
      let (s, found) ← getDispsocket s d dest choice
      match found with
      | none => return s
      | some (k, port) =>
        -- when there is no id the socket is lost
        return match findId m s dest port 64 (random % 65536) with
          | none => s
          | some (id, bucket) => s.setSect d (.adding dest id bucket port (some k))
    else
      return match findId m s dest x.localport 64 (random % 65536) with
        | none => s
        | some (id, bucket) => s.setSect d (.adding dest id bucket x.localport none)

/-- The socket of a new entry. -/
def takeSocket (k : Option S) (e : E) : Exec (State D E S V) :=
  match k with
  | none => .ok s
  | some k => do
    let y ← deref (s.dispsocket k)
    return s.setSocket k (some { y with resp := some e })

/-- The socket of a query that fails. -/
def destroySocketOf (d : D) (k : Option S) : Exec (State D E S V) :=
  match k with
  | none => .ok s
  | some k => destroyDispsocket s d k

/-- The entry is put into the table. -/
def addInsert (d : D) (dest : SockAddr) (id bucket port : ℕ) (k : Option S) (e : E) :
    Exec (State D E S V) := do
  let x ← deref (s.disp d)
  let s := s.setDisp d { x with refcount := x.refcount + 1, requests := x.requests + 1 }
  let s ← takeSocket s k e
  let s := s.setEntry e ⟨d, id, port, bucket, dest, false, k, []⟩
  return (s.setTable bucket (s.table bucket ++ [e])).setSect d (.added e)

/-- Without memory for an entry the socket is destroyed. -/
def addFail (d : D) (k : Option S) : Exec (State D E S V) := do
  let s ← destroySocketOf s d k
  return s.setSect d .none

/-- The entry is taken out of the table again when no receive can be started. -/
def addUndo (d : D) (e : E) : Exec (State D E S V) := do
  let z ← deref (s.entry e)
  let s := s.setTable z.bucket ((s.table z.bucket).erase e)
  let s ← destroySocketOf s d z.dispsocket
  let x ← deref (s.disp d)
  let s := s.setDisp d { x with refcount := x.refcount - 1, requests := x.requests - 1 }
  return { s with entry := update s.entry e none }

/-- `dns_dispatch_addresponse2` behind the entry. -/
def addEnd (m : Manager) (s : State D E S V) (d : D) (e : E) (start : Start) : Exec (State D E S V) := do
  let z ← deref (s.entry e)
  let (s, ok) ← startrecv m s d z.dispsocket start
  if ok then
    let x ← deref (s.disp d)
    let active := match z.dispsocket with
      | some k => x.activesockets ++ [k]
      | none => x.activesockets
    return (s.setDisp d { x with activesockets := active }).setSect d .none
  else return (← addUndo s d e).setSect d .none

/-- A reference is given up. -/
def unref (d : D) : Exec (State D E S V) := do
  let x ← deref (s.disp d)
  require (0 < x.refcount)
  return s.setDisp d { x with refcount := x.refcount - 1, shuttingDown := x.shuttingDown || x.refcount == 1 }

/-- The dispatch of an entry that is removed. -/
def unrequest (d : D) : Exec (State D E S V) := do
  let x ← deref (s.disp d)
  require (0 < x.requests)
  unref (s.setDisp d { x with requests := x.requests - 1 }) d

/-- The event of an entry that is removed: the one that the caller has, or the one that is taken back from its task. -/
def takeEvent (e : E) (itemOut : Bool) (ev : Option V) : Exec (State D E S V × Option V) :=
  match ev with
  | some v => .ok ({ s with got := s.got.erase (v, e) }, some v)
  | none =>
    if itemOut then do
      let events := s.sent.filter (fun x => x.2 == e)
      require (events.length == 1)
      return ({ s with sent := s.sent.filter (fun x => x.2 != e) }, events.head?.map Prod.fst)
    else .ok (s, none)

def freeEvents (d : D) (l : List V) : Exec (State D E S V) :=
  l.foldlM (fun s v => freeDevent s d v) s

/-- The socket of an entry that is removed. -/
def dropSocket (k : Option S) : Exec (State D E S V) :=
  match k with
  | none => .ok s
  | some k => do
    let y ← deref (s.dispsocket k)
    return s.setSocket k (some { y with resp := none })

/-- `dns_dispatch_removeresponse` up to the entry. -/
def removeresponse (e : E) (ev : Option V) : Exec (State D E S V) := do
  let z ← deref (s.entry e)
  let s ← unrequest s z.disp
  let s := s.setTable z.bucket ((s.table z.bucket).erase e)
  let (s, v) ← takeEvent s e z.itemOut ev
  require (v.isNone || z.itemOut)
  let s ← freeEvents s z.disp v.toList
  let s ← dropSocket s z.dispsocket
  let s ← freeEvents s z.disp z.items
  return { s with entry := update s.entry e none }.setSect z.disp .removed

/-- `dns_dispatch_removeresponse` behind the entry. -/
def removeEnd (m : Manager) (s : State D E S V) (d : D) (start : Start) : Exec (State D E S V) := do
  let x ← deref (s.disp d)
  if x.shuttingDown then return (← doCancel m s d).setSect d .none
  else
    let (s, _) ← startrecv m s d none start
    return s.setSect d .none

/-- The restart of `udp_recv`. -/
def recvEnd (m : Manager) (s : State D E S V) (d : D) (dispsock : Option S) (start : Start) (closed : Bool) :
    Exec (State D E S V) := do
  let (s, ok) ← startrecv m s d dispsock start
  match ok, dispsock with
  | false, some k => return (← deactivateDispsocket s d k closed).setSect d .none
  | _, _ => return s.setSect d .none

def cancel (m : Manager) (s : State D E S V) (d : D) : Exec (State D E S V) := do
  let x ← deref (s.disp d)
  if x.shuttingDown then return s else doCancel m (s.setDisp d { x with shuttingDown := true }) d

def Disp.destroyOk (x : Disp S V) : Bool := x.refcount == 0 && !x.recvPending && x.activesockets.isEmpty && x.shuttingDown

def dispatchFree (d : D) : Exec (State D E S V) := do
  let x ← deref (s.disp d)
  require (x.requests == 0 && !x.recvPending && x.activesockets.isEmpty)
  require (s.event x.failsafeEv).isSome
  let s := s.setEvent x.failsafeEv none
  let s := { s with dispsocket := fun k => if k ∈ x.inactivesockets then none else s.dispsocket k }
  return { s with disp := update s.disp d none }

/-! ### Steps -/

inductive Action (D E S V : Type) where
  | create (d : D) (exclusive nolisten : Bool) (socktype : SockType) (loc : SockAddr) (localport maxrequests : ℕ) (v : V)
  | attach (d : D)
  | detach (d : D)
  | add (d : D) (dest : SockAddr) (random : ℕ) (choice : Choice S) (v : Option V)
  | remove (e : E) (ev : Option V)
  | cancel (d : D)
  | recv (d : D) (dispsock : Option S) (r : Received) (v : Option V) (closed : Bool)
  -- the next section of the function that has the dispatch locked
  | next (d : D) (e : Option E) (start : Start) (closed : Bool)
  -- a task gives an event to its caller
  | run (v : V) (e : E)
  | destroy (d : D)
deriving DecidableEq, Repr

def nextStep (m : Manager) (s : State D E S V) (d : D) (e : Option E) (start : Start) (closed : Bool) :
    Exec (State D E S V) :=
  match s.sect d with
  | .none => .ok s
  | .adding dest id bucket port k =>
    match e with
    | some e => addInsert s d dest id bucket port k e
    | none => addFail s d k
  | .added e => addEnd m s d e start
  | .restart k => recvEnd m s d k start closed
  | .removed => removeEnd m s d start

def step (m : Manager) (s : State D E S V) : Action D E S V → Exec (State D E S V)
  | .create d exclusive nolisten socktype loc localport maxrequests v =>
    let x : Disp S V := ⟨exclusive, nolisten, socktype, loc, localport, maxrequests, 1, 0, false, false, false, v, [], [], 0⟩
    .ok { (s.setDisp d x).setEvent v (some .failsafe) with users := update s.users d 1 }
  | .attach d => do
    let x ← deref (s.disp d)
    return { s.setDisp d { x with refcount := x.refcount + 1 } with users := update s.users d (s.users d + 1) }
  | .detach d => do
    let s ← unref s d
    return { s with users := update s.users d (s.users d - 1) }
  | .add d dest random choice v => addBegin m s d dest random choice v
  | .remove e ev => removeresponse s e ev
  | .cancel d => Dispatch.cancel m s d
  | .recv d dispsock r v closed => udpRecv m s d dispsock r v closed
  | .next d e start closed => nextStep m s d e start closed
  | .run v e => .ok { s with sent := s.sent.erase (v, e), got := s.got ++ [(v, e)] }
  | .destroy d => dispatchFree s d

/-! ### Runs -/

def unlocked (d : D) : Bool := (s.disp d).isSome && s.sect d == .none

/-- The steps of callers that have what they name; addresses of new things are free. -/
def permitted : Action D E S V → Bool
  | .create d _ _ _ _ _ _ v => (s.disp d).isNone && (s.event v).isNone
  | .attach d | .detach d | .cancel d => unlocked s d && decide (0 < s.users d)
  | .add d _ _ choice v => unlocked s d && decide (0 < s.users d) && v.all (fun v => (s.event v).isNone) &&
      match choice with
      | .opened k _ => (s.dispsocket k).isNone
      | _ => true
  | .remove e ev =>
    match s.entry e with
    | none => false
    | some z => unlocked s z.disp && match ev with
        | some v => s.got.contains (v, e)
        | none => s.got.all (fun x => x.2 != e)
  | .recv d dispsock r v _ => unlocked s d && v.all (fun v => (s.event v).isNone) &&
      match dispsock with
      | none => (s.disp d).any (fun x => if r.imported then x.nolisten else x.recvPending)
      | some k => !r.imported && (s.dispsocket k).any (fun y => y.disp == d && y.receiving)
  | .next d e _ _ => (s.disp d).isSome && s.sect d != .none && e.all (fun e => (s.entry e).isNone)
  | .run v e => s.sent.contains (v, e)
  | .destroy d => unlocked s d && (s.disp d).any Disp.destroyOk

/-- The states that are reached by steps with `ok`. -/
inductive Reach (m : Manager) (ok : State D E S V → Action D E S V → Prop) : State D E S V → Prop
  | init : Reach m ok (init D E S V)
  | step {s s' : State D E S V} {a : Action D E S V} : Reach m ok s → permitted s a = true → ok s a → step m s a = .ok s' →
      Reach m ok s'

end Bind9.Dispatch
