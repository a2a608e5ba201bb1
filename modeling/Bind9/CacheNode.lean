import Bind9.Rbtdb

/-! # A node of the cache

The part of `lib/dns/rbtdb.c` that adds rdatasets to a node of the cache, deletes them, cleans the node and looks a type up.  In a cache
there are no versions: `add` is called with the version `NULL`, it replaces the header of a type and marks the old one stale, and a
header of a cache never carries `RDATASET_ATTR_IGNORE`.

Negative entries have the base type 0; the type that they deny is in `covers`, and `ANY` there denies all types.  Lists of headers are
`next` chains; a header that was found is given with the headers before and behind it. -/

namespace Bind9.Cache

open Rbtdb (RdType rrsig any)

/-! ### Headers -/

/-- `RBTDB_RDATATYPE_NCACHEANY`: NXDOMAIN, or NODATA for the type ANY. -/
def ncacheAny : RdType := ⟨0, any⟩

def nodata (type : UInt16) : RdType := ⟨0, type⟩

def sigOf (type : UInt16) : RdType := ⟨rrsig, type⟩

def trustUltimate : UInt16 := 9

structure Noqname where
  name : Name
  neg : List Rdata
  negsig : List Rdata
  type : UInt16
deriving DecidableEq

structure Header where
  type : RdType
  rdhTtl : ℕ
  trust : UInt16
  nonexistent : Bool
  stale : Bool
  negative : Bool
  nxdomain : Bool
  optout : Bool
  rdata : List Rdata
  noqname : Option Noqname
  closest : Option Noqname
deriving DecidableEq

/-- A header in the list of a node, and what hangs below it. -/
structure Chain where
  top : Header
  down : List Header
deriving DecidableEq

structure Node where
  data : List Chain
  dirty : Bool
deriving DecidableEq

/-- `set_ttl(rbtdb, header, 0)` and `RDATASET_ATTR_STALE`. -/
def Header.expire (h : Header) : Header := { h with rdhTtl := 0, stale := true }

def Chain.expire (c : Chain) : Chain := { c with top := c.top.expire }

/-- The first header in the list with a property, between the headers before and behind it. -/
def search (p : Header → Bool) : List Chain → Option (List Chain × Chain × List Chain)
  | [] => none
  | c :: cs => if p c.top then some ([], c, cs) else (search p cs).map (fun s => (c :: s.1, s.2))

/-- Mark `sigheader`, the last header of a type. -/
def expireLast (t : RdType) : List Chain → List Chain
  | [] => []
  | c :: cs => if c.top.type = t ∧ cs.all (fun d => d.top.type ≠ t) then c.expire :: cs else c :: expireLast t cs

/-! ### `add` -/

/-- `newheader` is less trusted than data that is not stale. -/
def Header.outranks (header : Header) (trust : UInt16) (now : ℕ) : Bool :=
  decide (trust < header.trust) && (decide (now < header.rdhTtl) || header.nonexistent)

section keep

variable (same : UInt16 → List Rdata → List Rdata → Bool) (header newheader : Header) (now : ℕ)

/-- An NS RRset that is in the cache already stays; `same` is `dns_rdataslab_equalx`. -/
def keepsNs : Bool :=
  decide (now < header.rdhTtl) && decide (header.type = ⟨2, 0⟩) && !header.nonexistent && !newheader.nonexistent &&
    decide (newheader.trust ≤ header.trust) && same header.type.base header.rdata newheader.rdata

def replacesNs : Bool :=
  decide (now < header.rdhTtl) && decide (header.type = ⟨2, 0⟩) && !header.nonexistent && !newheader.nonexistent &&
    decide (header.trust ≤ newheader.trust)

/-- An A, AAAA or DS RRset that is in the cache already stays, and so do the signatures of DS. -/
def keepsAddress : Bool :=
  decide (now < header.rdhTtl) && decide (header.type ∈ ([⟨1, 0⟩, ⟨28, 0⟩, ⟨43, 0⟩, sigOf 43] : List RdType)) &&
    !header.nonexistent && !newheader.nonexistent && decide (newheader.trust ≤ header.trust) && decide (header.rdata = newheader.rdata)

/-- The header that stays gets the smaller TTL, and the proofs that it lacks. -/
def kept : Header :=
  { header with
    rdhTtl := min header.rdhTtl newheader.rdhTtl
    noqname := header.noqname <|> newheader.noqname
    closest := header.closest <|> newheader.closest }

/-- The TTL of a new NS RRset is not longer than that of the old one. -/
def withNsTtl : Header :=
  if replacesNs header newheader now then { newheader with rdhTtl := min newheader.rdhTtl header.rdhTtl } else newheader

end keep

/-- What a call of `add` leaves behind: the header that `addedrdataset` shows, and `newheader` when it was linked and not freed. -/
structure Added where
  node : Node
  result : Result
  bound : Option Header
  linked : Option Header
deriving DecidableEq

section add

variable (same : UInt16 → List Rdata → List Rdata → Bool)

/-- `add` from `find_header` on: `place` is where `topheader` was found, and `sig` the type of `sigheader`. -/
def Node.addAt (node : Node) (newheader : Header) (trust : UInt16) (now : ℕ) (place : Option (List Chain × Chain × List Chain))
    (sig : Option RdType) : Added :=
  match place with
  | none =>
    if newheader.nonexistent then ⟨node, .unchanged, none, none⟩
    else ⟨{ node with data := ⟨newheader, []⟩ :: node.data }, .success, some newheader, some newheader⟩
  | some (before, c, behind) =>
    if c.top.nonexistent && newheader.nonexistent then ⟨node, .unchanged, none, none⟩
    else if c.top.outranks trust now then ⟨node, .unchanged, some c.top, none⟩
    else if keepsNs same c.top newheader now || keepsAddress c.top (withNsTtl c.top newheader now) now then
      let header := kept c.top newheader
      ⟨{ node with data := before ++ { c with top := header } :: behind }, .success, some header, none⟩
    else
      let newheader := withNsTtl c.top newheader now
      let data := before ++ ⟨newheader, c.top.expire :: c.down⟩ :: behind
      ⟨⟨match sig with
        | some t => expireLast t data
        | none => data, true⟩, .success, some newheader, some newheader⟩

/-- A negative entry that stands against `newheader`: the loop stops at the first one. -/
def Header.against (newheader h : Header) : Bool :=
  decide (h.type = ncacheAny) || decide (newheader.type.base = rrsig) && decide (h.type = nodata newheader.type.covers)

/-- A header that `newheader` replaces: of its type, or of `negtype`. -/
def Header.replaces (newheader : Header) (negtype : RdType) (h : Header) : Bool :=
  decide (h.type = newheader.type) || decide (h.type = negtype)

/-- `add` with the version `NULL`. -/
def Node.add (node : Node) (newheader : Header) (force : Bool) (now : ℕ) : Added :=
  let trust := if force then trustUltimate else newheader.trust
  if newheader.nonexistent then
    node.addAt same newheader trust now (search (newheader.replaces ⟨0, 0⟩) node.data) none
  else if newheader.negative then
    let covers := newheader.type.covers
    if covers = any then
      -- all other data is stale, and `topheader` is `NULL`
      Node.addAt same ⟨node.data.map Chain.expire, node.dirty || !node.data.isEmpty⟩ newheader trust now none none
    else node.addAt same newheader trust now (search (newheader.replaces ⟨covers, 0⟩) node.data) (some (sigOf covers))
  else
    let place := search (newheader.replaces (nodata newheader.type.base)) node.data
    match search newheader.against node.data with
    | none => node.addAt same newheader trust now place none
    | some (before, c, behind) =>
      if !c.top.nonexistent && decide (now < c.top.rdhTtl) then
        if trust < c.top.trust then ⟨node, .unchanged, some c.top, none⟩
        else
          -- the negative entry expires, and `topheader` is `NULL`
          Node.addAt same ⟨before ++ c.expire :: behind, true⟩ newheader trust now none none
      else node.addAt same newheader trust now place none

/-- The part of a `dns_rdataset_t` that `addrdataset` reads; negative ones have the type 0. -/
structure Rdataset where
  type : RdType
  ttl : ℕ
  trust : UInt16
  negative : Bool
  nxdomain : Bool
  optout : Bool
  slab : List Rdata
  noqname : Option Noqname
  closest : Option Noqname
  negative_iff : negative = true ↔ type.base = 0

/-- The header that `addrdataset` makes at the time `now`. -/
def Rdataset.header (r : Rdataset) (now : ℕ) : Header where
  type := r.type
  rdhTtl := (r.ttl + now) % 2 ^ 32
  trust := r.trust
  nonexistent := false
  stale := false
  negative := r.negative
  nxdomain := r.nxdomain
  optout := r.optout
  rdata := r.slab
  noqname := r.noqname
  closest := r.closest

/-- `addrdataset`; `force` is `DNS_DBADD_FORCE`. -/
def addrdataset (node : Node) (now : ℕ) (r : Rdataset) (force : Bool) : Added := node.add same (r.header now) force now

/-- The header that `deleterdataset` makes. -/
def nonexistentHeader (type : RdType) : Header := ⟨type, 0, 0, true, false, false, false, false, [], none, none⟩

def deleterdataset (node : Node) (type covers : UInt16) : Added :=
  if type = any ∨ type = rrsig ∧ covers = 0 then ⟨node, .notimplemented, none, none⟩
  else node.add same (nonexistentHeader ⟨type, covers⟩) true 0

end add

def cleanCacheNode (node : Node) : Node where
  data := (node.data.filter (fun c => !(c.top.nonexistent || c.top.stale))).map (fun c => { c with down := [] })
  dirty := false

/-- `expire_header` on the header at place `i` of the list. -/
def expireHeader (node : Node) (i : ℕ) : Node := ⟨node.data.modify i Chain.expire, true⟩

/-! ### Lookups -/

/-- What `bind_rdataset` shows of a header. -/
structure Bound where
  type : RdType
  ttl : ℕ
  trust : UInt16
  negative : Bool
  nxdomain : Bool
  optout : Bool
  rdata : List Rdata
  noqname : Option Noqname
  closest : Option Noqname
deriving DecidableEq

def Header.bind (h : Header) (now : ℕ) : Bound :=
  ⟨h.type, (h.rdhTtl + 2 ^ 32 - now) % 2 ^ 32, h.trust, h.negative, h.nxdomain, h.optout, h.rdata, h.noqname, h.closest⟩

/-- The result codes of a lookup. -/
inductive FindResult where
  | success
  | notfound
  | ncachenxdomain
  | ncachenxrrset
deriving DecidableEq, Repr

/-- The types that `cache_findrdataset` looks for. -/
structure Wanted where
  matchtype : RdType
  negtype : RdType
  sigmatchtype : RdType

/-- `matchtype`, `negtype` and `sigmatchtype`. -/
def wanted (t : RdType) : Wanted := ⟨t, nodata t.base, if t.covers = 0 then sigOf t.base else ⟨0, 0⟩⟩

/-- What the loop of `cache_findrdataset` leaves behind. -/
structure Search where
  data : List Chain
  dirty : Bool
  found : Option Header
  foundsig : Option Header
deriving DecidableEq

/-- The loop of `cache_findrdataset`: `write` says whether the lock is a write lock, and `tries` what `NODE_TRYUPGRADE` will answer.
A header that has been expired for `RBTDB_VIRTUAL` seconds is marked. -/
def findLoop (w : Wanted) (now : ℕ) : List Chain → Bool → List Bool → Option Header → Option Header → Search
  | [], _, _, found, foundsig => ⟨[], false, found, foundsig⟩
  | c :: cs, write, tries, found, foundsig =>
    if c.top.rdhTtl ≤ now then
      if c.top.rdhTtl ≤ (now + 2 ^ 32 - 300) % 2 ^ 32 then
        let upgraded := write || tries.headD false
        let rest := findLoop w now cs upgraded (if write then tries else tries.tail) found foundsig
        if upgraded then { rest with data := { c with top := { c.top with stale := true } } :: rest.data, dirty := true }
        else { rest with data := c :: rest.data }
      else
        let rest := findLoop w now cs write tries found foundsig
        { rest with data := c :: rest.data }
    else
      let found' := if !c.top.nonexistent && (decide (c.top.type = w.matchtype) || decide (c.top.type = ncacheAny) ||
        decide (c.top.type = w.negtype)) then some c.top else found
      let foundsig' := if !c.top.nonexistent && !(decide (c.top.type = w.matchtype) || decide (c.top.type = ncacheAny) ||
        decide (c.top.type = w.negtype)) && decide (c.top.type = w.sigmatchtype) then some c.top else foundsig
      let rest := findLoop w now cs write tries found' foundsig'
      { rest with data := c :: rest.data }

/-- The answer of `cache_findrdataset`. -/
structure Answer where
  result : FindResult
  rdataset : Option Bound
  sigrdataset : Option Bound
deriving DecidableEq

/-- The result code for what was found. -/
def Header.findResult (h : Header) : FindResult :=
  if h.negative then if h.nxdomain then .ncachenxdomain else .ncachenxrrset else .success

/-- `cache_findrdataset` for a type other than ANY. -/
def cacheFindrdataset (node : Node) (t : RdType) (now : ℕ) (tries : List Bool) : Node × Answer :=
  let s := findLoop (wanted t) now node.data false tries none none
  (⟨s.data, node.dirty || s.dirty⟩,
    match s.found with
    | none => ⟨.notfound, none, none⟩
    | some h => ⟨h.findResult, some (h.bind now), if h.negative then none else s.foundsig.map (·.bind now)⟩)

end Bind9.Cache
