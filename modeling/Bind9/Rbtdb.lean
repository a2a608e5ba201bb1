import Mathlib.Data.List.Basic
import Mathlib.Logic.Function.Basic
import Mathlib.Tactic
import Bind9.Rdataslab

/-! # The zone database and its versions

The part of `lib/dns/rbtdb.c` that keeps several versions of a zone.  A node has one chain of
headers for each type; `down` leads from a header to the older ones.  A header carries the serial
of the version that made it and two attributes: `ignore` (its version was rolled back) and
`NONEXISTENT` (the type was deleted), which is `rdata = none` here.

`open_versions` has the newest version first.  A version's `changed_list` has one record for each
write; every record holds a reference to its node, and a node is cleaned (`cleanZoneNode`) when
its last reference goes.

A failed `INSIST` or `REQUIRE` is `Failure.insist`, the `RUNTIME_CHECK` on the 32-bit serial is
`Failure.runtimeCheck`.  The search tree is left out: a node is a number, and the node without
data and references stands for one that is not in the tree. -/

namespace Bind9.Rbtdb

open Function

/-- `RBTDB_RDATATYPE_VALUE(base, covers)`. -/
structure RdType where
  base : UInt16
  covers : UInt16
deriving DecidableEq, Repr

def RdType.cname : RdType := ⟨5, 0⟩

def rrsig : UInt16 := 46

def any : UInt16 := 255

/-- "Other data" is any rdataset whose type is not KEY, SIG, NSEC or RRSIG. -/
def RdType.isOther (t : RdType) : Bool := t.base ≠ 25 ∧ t.base ≠ 24 ∧ t.base ≠ 47 ∧ t.base ≠ rrsig

structure Header where
  serial : ℕ
  ttl : ℕ
  type : RdType
  /-- `RDATASET_ATTR_IGNORE`. -/
  ignore : Bool
  /-- The slab behind the header; `none` for `RDATASET_ATTR_NONEXISTENT`. -/
  rdata : Option Slab
deriving DecidableEq

/-- The headers of one type: the one in the list of the node, and the `down` chain. -/
structure Chain where
  top : Header
  down : List Header
deriving DecidableEq

/-- The whole chain, newest first. -/
def Chain.headers (c : Chain) : List Header := c.top :: c.down

structure Node where
  data : List Chain
  dirty : Bool
  references : ℕ
deriving DecidableEq

structure Changed where
  node : ℕ
  dirty : Bool
deriving DecidableEq

structure Version where
  serial : ℕ
  references : ℕ
  writer : Bool
  commitOk : Bool
  changed : List Changed
deriving DecidableEq

/-- `dns_rbtdb_t`.  A version is known by its serial. -/
structure Db where
  nodes : ℕ → Node
  currentSerial : ℕ
  openVersions : List Version
  futureVersion : Option Version
  leastSerial : ℕ
  nextSerial : ℕ

/-- Why the process stops. -/
inductive Failure where
  | insist
  | runtimeCheck
deriving DecidableEq

def insist (b : Bool) : Except Failure Unit := if b then .ok () else .error .insist

/-- What `bind_rdataset` shows of a header. -/
structure Rdataset where
  ttl : ℕ
  rdata : Slab
deriving DecidableEq

/-! ### Reading -/

def Header.bind (h : Header) : Option Rdataset := h.rdata.map (fun s => ⟨h.ttl, s⟩)

/-- The walk down a chain to the active header, which must be extant. -/
def active (serial : ℕ) : List Header → Option Header
  | [] => none
  | h :: hs =>
    if h.serial ≤ serial ∧ h.ignore = false then
      if h.rdata.isNone then none else some h
    else active serial hs

def findLoop (serial : ℕ) (matchtype sigmatchtype : RdType) :
    List Chain → Option Header → Option Header → Option Header × Option Header
  | [], found, foundsig => (found, foundsig)
  | c :: cs, found, foundsig =>
    match active serial c.headers with
    | none => findLoop serial matchtype sigmatchtype cs found foundsig
    | some h =>
      if h.type = matchtype then
        if foundsig.isSome then (some h, foundsig)
        else findLoop serial matchtype sigmatchtype cs (some h) foundsig
      else if h.type = sigmatchtype then
        if found.isSome then (found, some h)
        else findLoop serial matchtype sigmatchtype cs found (some h)
      else findLoop serial matchtype sigmatchtype cs found foundsig

/-- `sigmatchtype` of `zone_findrdataset`. -/
def RdType.sigmatch (t : RdType) : RdType := if t.covers = 0 then ⟨rrsig, t.base⟩ else ⟨0, 0⟩

/-- `zone_findrdataset`: the rdataset and its signatures; `none` is `ISC_R_NOTFOUND`. -/
def zoneFindrdataset (node : Node) (serial : ℕ) (t : RdType) : Option (Rdataset × Option Rdataset) :=
  let (found, foundsig) := findLoop serial t t.sigmatch node.data none none
  (found.bind Header.bind).map (fun r => (r, foundsig.bind Header.bind))

def cnameAndOtherData (data : List Chain) (serial : ℕ) : Bool :=
  let cname := data.any (fun c => decide (c.top.type = .cname) && (active serial c.headers).isSome)
  let otherData := data.any (fun c => decide (c.top.type ≠ .cname) && c.top.type.isOther &&
    (active serial c.headers).isSome)
  cname && otherData

/-! ### Writing -/

/-- The options of `dns_db_addrdataset` that a zone looks at. -/
structure AddOptions where
  merge : Bool
  exact : Bool
  exactttl : Bool
deriving DecidableEq

/-- The list of the node with `c` in the place of the chain of type `t`. -/
def replaceChain (t : RdType) (c : Chain) : List Chain → List Chain
  | [] => []
  | d :: ds => if d.top.type = t then c :: ds else d :: replaceChain t c ds

/-- The chain of type `t`: `topheader` and what is below it. -/
def findChain (t : RdType) (data : List Chain) : Option Chain := data.find? (fun c => decide (c.top.type = t))

/-- The first header of a chain that is not ignored. -/
def Chain.header (c : Chain) : Option Header := c.headers.find? (fun h => !h.ignore)

/-- Put `newheader` on top of the chain `c`. -/
def Node.push (node : Node) (c : Chain) (newheader : Header) : Node :=
  { node with data := replaceChain c.top.type ⟨newheader, c.headers⟩ node.data, dirty := true }

/-- The end of `add`: the node, whether the changed record is dirty, the result. -/
def Node.finish (node : Node) (serial : ℕ) (dirty : Bool) : Node × Bool × Result :=
  (node, dirty, if cnameAndOtherData node.data serial then .cnameandother else .success)

/-- `add` from the test of `topheader->serial` on. -/
def Node.addTo (node : Node) (serial : ℕ) (c : Chain) (newheader : Header) (loading : Bool) :
    Except Failure (Node × Bool × Result) := do
  insist (c.top.serial ≤ serial)
  if loading then
    return Node.finish { node with data := replaceChain c.top.type ⟨newheader, []⟩ node.data } serial false
  else return Node.finish (node.push c newheader) serial true

variable (ops : RdataOps)

/-- The union of the rdata of `header` and of the new ones, with the new TTL. -/
def mergeRdata (mem : Bool) (o : AddOptions) (type : RdType) (ottl nttl : ℕ) (old new : Slab) :
    Except Result Slab :=
  if o.exactttl ∧ nttl ≠ ottl then .error .notexact
  else Slab.merge ops type.base mem old new o.exact (nttl ≠ ottl)

/-- `add` for a zone, without the changed record; `mem` says whether the merged slab gets its memory. -/
def Node.add (mem : Bool) (node : Node) (serial : ℕ) (newheader : Header) (o : AddOptions)
    (loading : Bool) : Except Failure (Node × Bool × Result) :=
  match findChain newheader.type node.data with
  | none =>
    if newheader.rdata.isNone then .ok (node, false, .unchanged)
    else .ok (Node.finish { node with data := ⟨newheader, []⟩ :: node.data } serial false)
  | some c =>
    match c.header with
    | none =>
      -- all the headers of the type are ignored
      if newheader.rdata.isNone then .ok (node, false, .unchanged)
      else do
        insist (!loading)
        node.addTo serial c newheader loading
    | some header =>
      match header.rdata, newheader.rdata with
      | none, none => .ok (node, false, .unchanged)
      | some old, some new =>
        if o.merge then do
          insist (header.serial ≤ serial)
          match mergeRdata ops mem o header.type header.ttl newheader.ttl old new with
          | .error r => return (node, false, r)
          | .ok merged => node.addTo serial c { newheader with rdata := some merged } loading
        else node.addTo serial c newheader loading
      | _, _ => node.addTo serial c newheader loading

/-- `subtractrdataset` on the node, after the changed record was made. -/
def Node.subtract (mem : Bool) (node : Node) (serial : ℕ) (type : RdType) (ttl : ℕ) (sub : Slab)
    (exact : Bool) : Except Failure (Node × Bool × Result) :=
  let missing : Except Failure (Node × Bool × Result) :=
    .ok (node, false, if exact then .notexact else .unchanged)
  match findChain type node.data with
  | none => missing
  | some c =>
    match c.header with
    | none => missing
    | some header =>
      match header.rdata with
      | none => missing
      | some old =>
        if exact ∧ ttl ≠ header.ttl then .ok (node, false, .notexact)
        else
          match Slab.subtract ops type.base mem old sub exact with
          | .ok rest => do
            insist (c.top.serial ≤ serial)
            -- the slab routine copies the old header, so the TTL stays the old one
            return (node.push c { header with serial := serial, rdata := some rest }, true, .success)
          | .error .nxrrset =>
            if mem = false then .ok (node, false, .nomemory)
            else do
              insist (c.top.serial ≤ serial)
              return (node.push c ⟨serial, 0, c.top.type, false, none⟩, true, .nxrrset)
          | .error r => .ok (node, false, r)

/-- Which allocations of a write succeed: the new header, the changed record, the result. -/
structure Mem where
  header : Bool
  changed : Bool
  result : Bool
deriving DecidableEq

/-- `add_changed`, then the change of the node.  The record is made dirty when `f` says so. -/
def changing (db : Db) (mem : Bool) (n : ℕ) (f : Node → ℕ → Except Failure (Node × Bool × Result)) :
    Except Failure (Db × Result) :=
  match db.futureVersion with
  | none => .error .insist
  | some w =>
    if mem = false then .ok ({ db with futureVersion := some { w with commitOk := false } }, .nomemory)
    else do
      let (node, dirty, r) ← f { db.nodes n with references := (db.nodes n).references + 1 } w.serial
      return ({ db with
        nodes := update db.nodes n node
        futureVersion := some { w with changed := w.changed ++ [⟨n, dirty⟩] } }, r)

def addrdataset (db : Db) (mem : Mem) (n : ℕ) (type : RdType) (ttl : ℕ) (rdata : Slab)
    (o : AddOptions) : Except Failure (Db × Result) :=
  if mem.header = false then .ok (db, .nomemory)
  else changing db mem.changed n (fun node serial =>
    node.add ops mem.result serial ⟨serial, ttl, type, false, some rdata⟩ o false)

def subtractrdataset (db : Db) (mem : Mem) (n : ℕ) (type : RdType) (ttl : ℕ) (rdata : Slab)
    (exact : Bool) : Except Failure (Db × Result) :=
  if mem.header = false then .ok (db, .nomemory)
  else changing db mem.changed n (fun node serial => node.subtract ops mem.result serial type ttl rdata exact)

def deleterdataset (db : Db) (mem : Mem) (n : ℕ) (type : RdType) : Except Failure (Db × Result) :=
  if type.base = any then .ok (db, .notimplemented)
  else if type.base = rrsig ∧ type.covers = 0 then .ok (db, .notimplemented)
  else if mem.header = false then .ok (db, .nomemory)
  else changing db mem.changed n (fun node serial =>
    node.add ops mem.result serial ⟨serial, 0, type, false, none⟩ ⟨false, false, false⟩ false)

/-! ### Cleaning -/

variable (serial : ℕ)

/-- The mark that `rollback_node` sets. -/
def Header.giveUp (h : Header) : Header := if h.serial = serial then { h with ignore := true } else h

/-- The marks along a chain. -/
def Chain.giveUp (c : Chain) : Chain := ⟨c.top.giveUp serial, c.down.map (Header.giveUp serial)⟩

def rollbackNode (node : Node) : Node :=
  { node with
    data := node.data.map (Chain.giveUp serial)
    dirty := node.dirty || node.data.any (fun c => c.headers.any (fun h => decide (h.serial = serial))) }

/-- The loop of `clean_zone_node` that drops ignored headers and repeated serials below `dparent`. -/
def pruneDown (dparent : Header) : List Header → Except Failure (List Header)
  | [] => .ok []
  | d :: ds => do
    insist (d.serial ≤ dparent.serial)
    if d.serial = dparent.serial ∨ d.ignore = true then pruneDown dparent ds
    else return d :: (← pruneDown d ds)

/-- The loop that frees the headers from the first one below the least serial on. -/
def freeDown (least : ℕ) : List Header → Except Failure Unit
  | [] => .ok ()
  | d :: ds => do
    insist (d.serial ≤ least)
    freeDown least ds

/-- The part of the chain above the first header below the least serial. -/
def cutDown (least : ℕ) (down : List Header) : Except Failure (List Header) := do
  freeDown least (down.dropWhile (fun d => decide (least ≤ d.serial)))
  return down.takeWhile (fun d => decide (least ≤ d.serial))

/-- The rest of the loop body of `clean_zone_node`, for a `current` that is not ignored. -/
def cleanCurrent (least : ℕ) (current : Header) (down : List Header) : Except Failure (Option Chain) := do
  let down ← cutDown least down
  if down = [] ∧ current.rdata.isNone then return none else return some ⟨current, down⟩

/-- The loop body of `clean_zone_node`: what is left of the chain. -/
def cleanChain (least : ℕ) (c : Chain) : Except Failure (Option Chain) := do
  let down ← pruneDown c.top c.down
  if c.top.ignore then
    match down with
    | [] => return none
    | d :: ds => cleanCurrent least d ds
  else cleanCurrent least c.top down

def cleanChains (least : ℕ) : List Chain → Except Failure (List Chain)
  | [] => .ok []
  | c :: cs => do
    let c' ← cleanChain least c
    let cs' ← cleanChains least cs
    return c'.toList ++ cs'

/-- `clean_zone_node`: the node stays dirty as long as a chain has older headers. -/
def cleanZoneNode (least : ℕ) (node : Node) : Except Failure Node := do
  let data ← cleanChains least node.data
  return { node with data := data, dirty := node.dirty && data.any (fun c => decide (c.down ≠ [])) }

def decrementReference (least : ℕ) (node : Node) : Except Failure Node := do
  insist (0 < node.references)
  let node := { node with references := node.references - 1 }
  if node.references = 0 ∧ node.dirty then cleanZoneNode least node else return node

/-- The loop of `closeversion` over the cleanup list; `prepare` is `rollback_node` or nothing. -/
def cleanup (least : ℕ) (prepare : Node → Node) : List Changed → (ℕ → Node) → Except Failure (ℕ → Node)
  | [], nodes => .ok nodes
  | r :: rs, nodes => do
    let node ← decrementReference least (prepare (nodes r.node))
    cleanup least prepare rs (update nodes r.node node)

/-! ### Versions -/

def findVersion (vs : List Version) : Option Version := vs.find? (fun v => decide (v.serial = serial))

/-- Change the version of a serial. -/
def modifyVersion (f : Version → Version) (vs : List Version) : List Version :=
  vs.map (fun v => if v.serial = serial then f v else v)

def unlink (vs : List Version) : List Version := vs.filter (fun v => decide (v.serial ≠ serial))

/-- `PREV`: the version before the one of a serial. -/
def prevVersion (serial : ℕ) : List Version → Option Version
  | u :: v :: vs => if v.serial = serial then some u else prevVersion serial (v :: vs)
  | _ => none

variable (db : Db)

/-- The version that a caller's pointer stands for. -/
def Db.version (serial : ℕ) : Option Version :=
  match db.futureVersion with
  | some w => if w.serial = serial then some w else findVersion serial db.openVersions
  | none => findVersion serial db.openVersions

/-- Write a version back. -/
def Db.setReferences (serial references : ℕ) : Db :=
  { db with
    openVersions := modifyVersion serial (fun v => { v with references := references }) db.openVersions
    futureVersion := db.futureVersion.map (fun w =>
      if w.serial = serial then { w with references := references } else w) }

def currentversion : Except Failure (Db × ℕ) :=
  match findVersion db.currentSerial db.openVersions with
  | none => .error .insist
  | some v => .ok (db.setReferences v.serial (v.references + 1), v.serial)

def attachversion (serial : ℕ) : Except Failure Db :=
  match db.version serial with
  | none => .error .insist
  | some v => do
    insist (1 < v.references + 1)
    return db.setReferences serial (v.references + 1)

/-- `newversion`; `none` is `ISC_R_NOMEMORY`. -/
def newversion (mem : Bool) : Except Failure (Db × Option ℕ) := do
  insist db.futureVersion.isNone
  if db.nextSerial = 0 then .error .runtimeCheck
  else if mem = false then return (db, none)
  else
    return ({ db with
      futureVersion := some ⟨db.nextSerial, 1, true, true, []⟩
      nextSerial := (db.nextSerial + 1) % 2 ^ 32 }, some db.nextSerial)

/-- The commit branch of `closeversion`. -/
def commitVersion (version : Version) : Except Failure Db := do
  insist version.commitOk
  insist (db.futureVersion.map Version.serial = some version.serial)
  match findVersion db.currentSerial db.openVersions with
  | none => .error .insist
  | some cur =>
    let curRef := cur.references - 1
    insist (curRef = 0 ∧ cur.serial = db.leastSerial → cur.changed = [])
    let opened :=
      if curRef = 0 then unlink cur.serial db.openVersions
      else modifyVersion cur.serial (fun v => { v with references := curRef }) db.openVersions
    -- make_least_version or cleanup_nondirty
    let least := if opened = [] then version.serial else db.leastSerial
    let cleanupList := if opened = [] then version.changed else version.changed.filter (fun r => !r.dirty)
    let changed := if opened = [] then [] else version.changed.filter (fun r => r.dirty)
    let changed := if curRef = 0 then changed ++ cur.changed else changed
    let nodes ← cleanup least id cleanupList db.nodes
    return { nodes := nodes
             currentSerial := version.serial
             openVersions := { version with writer := false, references := 1, changed := changed } :: opened
             futureVersion := none
             leastSerial := least
             nextSerial := db.nextSerial }

/-- The rollback branch of `closeversion`. -/
def rollbackVersion (version : Version) : Except Failure Db := do
  let nodes ← cleanup db.leastSerial (rollbackNode version.serial) version.changed db.nodes
  return { db with nodes := nodes, futureVersion := none }

/-- The branch of `closeversion` for the last reference to a version that is not the writer's. -/
def closeReader (version : Version) : Except Failure Db := do
  if version.serial ≠ db.currentSerial then
    match (prevVersion version.serial db.openVersions).or (findVersion db.currentSerial db.openVersions) with
    | none => .error .insist
    | some leastGreater =>
      insist (version.serial < leastGreater.serial)
      if version.serial = db.leastSerial then
        insist (version.changed = [])
        let nodes ← cleanup leastGreater.serial id leastGreater.changed db.nodes
        return { db with
          nodes := nodes
          openVersions := unlink version.serial
            (modifyVersion leastGreater.serial (fun v => { v with changed := [] }) db.openVersions)
          leastSerial := leastGreater.serial }
      else
        return { db with
          openVersions := unlink version.serial (modifyVersion leastGreater.serial
            (fun v => { v with changed := v.changed ++ version.changed }) db.openVersions) }
  else
    insist (version.serial = db.leastSerial → version.changed = [])
    return { db with openVersions := unlink version.serial db.openVersions }

def closeversion (serial : ℕ) (commit : Bool) : Except Failure Db :=
  match db.version serial with
  | none => .error .insist
  | some version => do
    insist (0 < version.references)
    let refs := version.references - 1
    if 0 < refs then
      insist (!commit || !version.writer)
      return db.setReferences serial refs
    else if version.writer then
      if commit then commitVersion db version else rollbackVersion db version
    else closeReader db version

/-- `attachnode`, and the `new_reference` of `findnode`. -/
def attachnode (n : ℕ) : Db :=
  { db with nodes := update db.nodes n ⟨(db.nodes n).data, (db.nodes n).dirty, (db.nodes n).references + 1⟩ }

def detachnode (n : ℕ) : Except Failure Db := do
  let node ← decrementReference db.leastSerial (db.nodes n)
  return { db with nodes := update db.nodes n node }

/-! ### Loading -/

/-- A database as `dns_rbtdb_create` makes it. -/
def create : Db where
  nodes := fun _ => ⟨[], false, 0⟩
  currentSerial := 1
  openVersions := [⟨1, 1, false, false, []⟩]
  futureVersion := none
  leastSerial := 1
  nextSerial := 2

/-- The `add` of `loading_addrdataset`: it merges, and makes no changed record. -/
def loadingAddrdataset (ops : RdataOps) (db : Db) (mem : Bool) (n : ℕ) (type : RdType) (ttl : ℕ) (rdata : Slab) :
    Except Failure (Db × Result) := do
  let (node, _, r) ← (db.nodes n).add ops mem db.currentSerial ⟨1, ttl, type, false, some rdata⟩
    ⟨true, false, false⟩ true
  return ({ db with nodes := update db.nodes n node }, if r = .unchanged then .success else r)

/-! ### Calls -/

/-- The calls on a loaded zone. -/
inductive Op where
  | currentversion
  | attachversion (serial : ℕ)
  | newversion (mem : Bool)
  | closeversion (serial : ℕ) (commit : Bool)
  | addrdataset (mem : Mem) (n : ℕ) (type : RdType) (ttl : ℕ) (rdata : Slab) (o : AddOptions)
  | subtractrdataset (mem : Mem) (n : ℕ) (type : RdType) (ttl : ℕ) (rdata : Slab) (exact : Bool)
  | deleterdataset (mem : Mem) (n : ℕ) (type : RdType)
  | findrdataset (serial : ℕ) (n : ℕ) (type : RdType)
  | attachnode (n : ℕ)
  | detachnode (n : ℕ)
deriving DecidableEq

/-- What a call returns. -/
inductive Answer where
  | done
  | version (serial : Option ℕ)
  | result (r : Result)
  | rdataset (r : Option (Rdataset × Option Rdataset))
deriving DecidableEq

/-- One call. -/
def step (ops : RdataOps) (db : Db) : Op → Except Failure (Db × Answer)
  | .currentversion => do
    let (db', v) ← currentversion db
    return (db', .version (some v))
  | .attachversion serial => do return (← attachversion db serial, .done)
  | .newversion mem => do
    let (db', v) ← newversion db mem
    return (db', .version v)
  | .closeversion serial commit => do return (← closeversion db serial commit, .done)
  | .addrdataset mem n type ttl rdata o => do
    let (db', r) ← addrdataset ops db mem n type ttl rdata o
    return (db', .result r)
  | .subtractrdataset mem n type ttl rdata exact => do
    let (db', r) ← subtractrdataset ops db mem n type ttl rdata exact
    return (db', .result r)
  | .deleterdataset mem n type => do
    let (db', r) ← deleterdataset ops db mem n type
    return (db', .result r)
  | .findrdataset serial n type => return (db, .rdataset (zoneFindrdataset (db.nodes n) serial type))
  | .attachnode n => return (attachnode db n, .done)
  | .detachnode n => do return (← detachnode db n, .done)

end Bind9.Rbtdb
