import Bind9.Region

/-! # Zone files in raw format

`dumptostreaminc` of `lib/dns/masterdump.c` for the format `dns_masterformat_raw`, and `load_raw` of `lib/dns/master.c`.
A raw file is a header and a record for each rdataset: the length of the record, class, type, covered type, TTL, number of
rdata, owner and rdata.

Both sides work in steps.  The dump writes a number of nodes in a step and goes on later with a new buffer; the loader
reads a number of rdatasets and goes on in another call, with new local variables.  A rdataset that is too large for the
loader's buffer is read piece by piece and committed in parts.

The iterators of the database are the lists of what they visit.  `isc_stdio` reads back what was written, and memory is
there unless its size is negative. -/

namespace Bind9.RawZone

abbrev Rdata := Bytes

/-- `dns_masterrawheader_t`; `format` is always `dns_masterformat_raw`. -/
structure Header where
  version : UInt32
  dumptime : UInt32
  flags : UInt32
  sourceserial : UInt32
  lastxfrin : UInt32
deriving DecidableEq, Repr

def Header.init : Header := ⟨0, 0, 0, 0, 0⟩

def compat : UInt32 := 1

def masterformatRaw : ℕ := 2

/-- An rdataset of a zone.  Type 0 is not the type of a record. -/
structure Rdataset where
  rdclass : UInt16
  type : UInt16
  covers : UInt16
  ttl : UInt32
  rdata : List Rdata
  nonempty : rdata ≠ []
  count_lt : rdata.length < 65536
  rdata_lt : ∀ r ∈ rdata, r.length < 65536
  type_ne : type ≠ 0

structure Node where
  name : AbsName
  sets : List Rdataset

/-! ### The dump -/

def initialBufferLength : ℕ := 1200

def intMax : ℕ := 0x7fffffff

/-- The common header of a record, the length still zero, and the owner. -/
def recordHead (name : AbsName) (set : Rdataset) : Bytes :=
  uint32Bytes 0 ++ (uint16Bytes set.rdclass.toNat ++ (uint16Bytes set.type.toNat ++ (uint16Bytes set.covers.toNat ++
    (uint32Bytes set.ttl.toNat ++ (uint32Bytes set.rdata.length ++
      (uint16Bytes name.name.length ++ name.name.ndata))))))

def rdataBytes (r : Rdata) : Bytes := uint16Bytes r.length ++ r

/-- The loop of `dump_rdataset_raw`: what is in a buffer of this length then, or `none` if the buffer is too small. -/
def putRdata (length : ℕ) (used : Bytes) : List Rdata → Exec (Option Bytes)
  | [] => .ok (some used)
  | r :: rs => do
    require (decide (r.length ≤ 0xffff))
    if length - used.length < 2 + r.length then pure none else putRdata length (used ++ rdataBytes r) rs

/-- `dump_rdataset_raw`: the length of the buffer afterwards, and what is written. -/
def dumpRdatasetRaw (name : AbsName) (set : Rdataset) (length : ℕ) : Exec (ℕ × Bytes) :=
  if _hpos : length = 0 then .error .assertion
  else do
    -- the header and the owner are put without a test of the space
    require (decide (20 ≤ length ∧ 2 + name.name.length ≤ length - 18))
    let used ← putRdata length (recordHead name set) set.rdata
    match used with
    | none => if _hint : intMax < 2 * length then stop .nomemory else dumpRdatasetRaw name set (2 * length)
    | some used => do
      require (decide (4 < used.length % 2 ^ 32))
      pure (length, uint32Bytes (used.length % 2 ^ 32) ++ used.drop 4)
termination_by intMax - length
decreasing_by omega

def dumpRdatasetsRaw (name : AbsName) : List Rdataset → ℕ → Exec (ℕ × Bytes)
  | [], length => .ok (length, [])
  | set :: sets, length => do
    let (length, bytes) ← dumpRdatasetRaw name set length
    let (length, more) ← dumpRdatasetsRaw name sets length
    pure (length, bytes ++ more)

def headerBytes (now32 : UInt32) (header : Header) : Bytes :=
  if header.flags &&& compat ≠ 0 then uint32Bytes masterformatRaw ++ (uint32Bytes 0 ++ uint32Bytes now32.toNat)
  else uint32Bytes masterformatRaw ++ (uint32Bytes 1 ++ (uint32Bytes now32.toNat ++ (uint32Bytes header.flags.toNat ++
    (uint32Bytes header.sourceserial.toNat ++ uint32Bytes header.lastxfrin.toNat))))

/-- The loop of `dumptostreaminc`; `quantum` is `dctx->nodes`, and what is returned are the file and the nodes that the
iterator has still to visit. -/
def dumpLoop (quantum : ℕ) : List Node → ℕ → ℕ → Bytes → Exec (Bytes × List Node)
  | [], _, _, file => .ok (file, [])
  | node :: rest, nodes, length, file =>
    if quantum = 0 ∨ nodes ≠ 0 then do
      let (length, bytes) ← dumpRdatasetsRaw node.name node.sets length
      dumpLoop quantum rest (nodes - 1) length (file ++ bytes)
    else .ok (file, node :: rest)

/-- `dumptostreaminc`: the nodes are left that the next call has to write. -/
def dumptostreaminc (now32 : UInt32) (header : Header) (quantum : ℕ) (first : Bool) (file : Bytes)
    (nodes : List Node) : Exec (Bytes × List Node) :=
  dumpLoop quantum nodes quantum initialBufferLength (if first then file ++ headerBytes now32 header else file)

/-- The calls of `dumptostreaminc` until all is written; `quanta i` is `dctx->nodes` in the call `i`.  Every call but the
last writes a node, so that there are at most as many calls as nodes, and the first. -/
def dumpSteps (now32 : UInt32) (header : Header) (quanta : ℕ → ℕ) : ℕ → ℕ → Bytes → List Node → Exec Bytes
  | 0, _, _, _ => .error .overrun
  | fuel + 1, i, file, nodes => do
    let (file, rest) ← dumptostreaminc now32 header (quanta i) (i == 0) file nodes
    if rest.isEmpty then pure file else dumpSteps now32 header quanta fuel (i + 1) file rest

/-- The file that is written. -/
def dump (now32 : UInt32) (header : Header) (quanta : ℕ → ℕ) (nodes : List Node) : Exec Bytes :=
  dumpSteps now32 header quanta (nodes.length + 1) 0 [] nodes

/-! ### Reading -/

def tsiz : ℕ := 128 * 1024

def rdataMaxlength : ℕ := 65512

def mintsiz : ℕ := rdataMaxlength

/-- `isc_stdio_read`: the bytes, and what is left of the file. -/
def stdioRead (file : Bytes) (n : ℕ) : Exec (Bytes × Bytes) :=
  if n ≤ file.length then .ok (file.take n, file.drop n) else stop .eof

structure Target where
  used : Bytes
  current : ℕ

def Target.available (t : Target) : ℕ := tsiz - t.used.length

def Target.remaining (t : Target) : ℕ := t.used.length - t.current

def Target.getuint16 (t : Target) : Exec (ℕ × Target) := do
  let v ← uint16Fromregion (t.used.drop t.current)
  pure (v, { t with current := t.current + 2 })

def Target.getuint32 (t : Target) : Exec (ℕ × Target) := do
  let v ← uint32Fromregion (t.used.drop t.current)
  pure (v, { t with current := t.current + 4 })

def readAndCheck (doRead : Bool) (t : Target) (len : ℕ) (file : Bytes) : Exec (Target × Bytes) :=
  if doRead then do
    require (decide (len ≤ t.available))
    let (bytes, file) ← stdioRead file len
    pure ({ t with used := t.used ++ bytes }, file)
  else if t.remaining < len then stop .range
  else .ok (t, file)

/-- What is given to `callbacks->add`. -/
structure Added where
  owner : Name
  rdclass : UInt16
  type : UInt16
  covers : UInt16
  ttl : UInt32
  rdata : List Rdata

/-- What the loader takes from outside: the functions for the types, the callback, and the options. -/
structure LoadEnv where
  /-- `FROMWIRESWITCH` of `dns_rdata_fromwire` without decompression, for a source and a target of the same length. -/
  fromwire : (rdclass type : UInt16) → Bytes → Exec Rdata
  /-- `callbacks->add`. -/
  add : Added → Result
  /-- `DNS_MASTER_MANYERRORS`. -/
  manyerrors : Bool
  /-- `lctx->loop_cnt`; a load that is not incremental has 0. -/
  loopCnt : ℕ

/-- `dns_loadctx_t`, and what the callbacks were given. -/
structure LoadCtx where
  first : Bool
  header : Header
  result : Result
  file : Bytes
  added : List Added
  rawdata : List Header

variable (env : LoadEnv)

def rdataFromwire (rdclass type : UInt16) (source : Bytes) : Exec Rdata :=
  if type = 0 then stop .formerr
  else do
    require (decide (source.length < 65536))
    let rdata ← env.fromwire rdclass type source
    if rdataMaxlength < rdata.length then stop .formerr else pure rdata

def commit (l : LoadCtx) (a : Added) : Exec LoadCtx :=
  let l := { l with added := l.added ++ [a] }
  let result := env.add a
  if result = .success then .ok l
  else if result ≠ .ioerror ∧ env.manyerrors then
    .ok { l with result := if l.result = .success then result else l.result }
  else stop result

/-- `rdatalist`, before its rdata are read. -/
structure Rdatalist where
  owner : Name
  rdclass : UInt16
  type : UInt16
  covers : UInt16
  ttl : UInt32

def Rdatalist.added (list : Rdatalist) (rdata : List Rdata) : Added :=
  ⟨list.owner, list.rdclass, list.type, list.covers, list.ttl, rdata⟩

/-- The local variables of the loop over the rdata: those read and not yet committed, and the buffer. -/
structure Batch where
  rdata : List Rdata
  target : Target

/-- The start of the loop over the rdata: the partial commit.  The loop starts again then, with an empty buffer. -/
def partialCommit (list : Rdatalist) (sequential : Bool) (b : Batch) (l : LoadCtx) :
    Exec (Batch × LoadCtx) :=
  if sequential ∧ b.target.available < mintsiz then do
    require (!b.rdata.isEmpty)
    let l ← commit env l (list.added b.rdata)
    pure (⟨[], ⟨[], 0⟩⟩, l)
  else .ok (b, l)

/-- The rest of the loop over the rdata: the next rdata. -/
def readRdata (list : Rdatalist) (sequential : Bool) (b : Batch) (l : LoadCtx) :
    Exec (Batch × LoadCtx) := do
  let (t, file) ← readAndCheck sequential b.target 2 l.file
  let (rdlen, t) ← t.getuint16
  let (t, file) ← readAndCheck sequential t rdlen file
  require (decide (t.current + rdlen ≤ t.used.length))
  let rdata ← rdataFromwire env list.rdclass list.type ((t.used.drop t.current).take rdlen)
  pure (⟨b.rdata ++ [rdata], { t with current := t.current + rdlen }⟩, { l with file := file })

/-- The loop over the rdata, with the number of rdata that are missing. -/
def rdataLoop (env : LoadEnv) (list : Rdatalist) (sequential : Bool) : ℕ → Batch → LoadCtx → Exec (Batch × LoadCtx)
  | 0, b, l => .ok (b, l)
  | n + 1, b, l => do
    let (b, l) ← partialCommit env list sequential b l
    let (b, l) ← readRdata env list sequential b l
    rdataLoop env list sequential n b l

/-- The owner of an rdataset, and the buffer behind it. -/
def readOwner (sequential : Bool) (t : Target) (file : Bytes) : Exec (Name × Target × Bytes) := do
  let (t, file) ← readAndCheck sequential t 2 file
  let (namelen, t) ← t.getuint16
  if 255 < namelen then stop .range
  else do
    let (t, file) ← readAndCheck sequential t namelen file
    require (decide (t.current + namelen ≤ t.used.length))
    match fromwire (t.used.take (t.current + namelen)) t.current 255 false 0 with
    | .error r => stop r
    | .ok d => do
      let name ← nameFromregion d.ndata
      pure (name, { t with current := t.current + d.cused }, file)

/-- The record of an rdataset, behind its length. -/
def loadRecord (totallen : ℕ) (l : LoadCtx) : Exec LoadCtx := do
  let sequential : Bool := decide (tsiz < totallen)
  let readlen := if sequential then 14 else totallen
  let (bytes, file) ← stdioRead l.file readlen
  let (rdclass, t) ← Target.getuint16 ⟨bytes, 0⟩
  let (type, t) ← t.getuint16
  let (covers, t) ← t.getuint16
  let (ttl, t) ← t.getuint32
  let (rdcount, t) ← t.getuint32
  if rdcount = 0 then stop .range
  else do
    require (decide (t.current ≤ readlen))
    let (owner, t, file) ← readOwner sequential t file
    let list : Rdatalist := ⟨owner, UInt16.ofNat rdclass, UInt16.ofNat type, UInt16.ofNat covers, UInt32.ofNat ttl⟩
    let (b, l) ← rdataLoop env list sequential rdcount ⟨[], t⟩ { l with file := file }
    if b.target.remaining ≠ 0 then stop .range else commit env l (list.added b.rdata)

/-- One turn of the loop of `load_raw`; `none` at the end of the file. -/
def loadRdataset (l : LoadCtx) : Exec (Option LoadCtx) :=
  if l.file.length < 4 then .ok none
  else do
    let (bytes, file) ← stdioRead l.file 4
    let totallen ← uint32Fromregion bytes
    if totallen < 18 then stop .range
    else do
      let l ← loadRecord env (totallen - 4) { l with file := file }
      pure (some l)

/-- The loop of `load_raw`: has the end of the file been seen?  Every turn reads four bytes at least, so that the bytes of
the file bound the turns. -/
def loadLoop (env : LoadEnv) : ℕ → ℕ → LoadCtx → Exec (Bool × LoadCtx)
  | 0, _, _ => .error .overrun
  | fuel + 1, loopCnt, l =>
    if env.loopCnt = 0 ∨ loopCnt < env.loopCnt then do
      let next ← loadRdataset env l
      match next with
      | none => pure (true, l)
      | some l => loadLoop env fuel (loopCnt + 1) l
    else .ok (false, l)

/-- The header of the file, which the first call reads. -/
def loadHeader (l : LoadCtx) : Exec (Header × LoadCtx) := do
  let (common, file) ← stdioRead l.file 8
  let format ← uint32Fromregion common
  if format ≠ masterformatRaw then stop .notimplemented
  else do
    let version ← uint32Fromregion (common.drop 4)
    if 1 < version then stop .notimplemented
    else do
      let (rest, file) ← stdioRead file (if version = 0 then 4 else 16)
      let dumptime ← uint32Fromregion rest
      if version = 0 then
        let header : Header := ⟨0, UInt32.ofNat dumptime, 0, 0, 0⟩
        pure (header, { l with first := false, header := header, file := file })
      else do
        let flags ← uint32Fromregion (rest.drop 4)
        let sourceserial ← uint32Fromregion (rest.drop 8)
        let lastxfrin ← uint32Fromregion (rest.drop 12)
        let header : Header := ⟨1, UInt32.ofNat dumptime, UInt32.ofNat flags, UInt32.ofNat sourceserial, UInt32.ofNat lastxfrin⟩
        pure (header, { l with first := false, header := header, file := file })

/-- `load_raw` behind the header: is all read, or has the function to be called again? -/
def loadBody (header : Header) (l : LoadCtx) : Exec (Bool × LoadCtx) := do
  let (done, l) ← loadLoop env (l.file.length + 1) 0 l
  if done = false then pure (false, l)
  else if l.result ≠ .success then stop l.result
  else pure (true, { l with rawdata := l.rawdata ++ [header] })

/-- `load_raw`.  The variable `header` is a local one. -/
def loadRaw (l : LoadCtx) : Exec (Bool × LoadCtx) :=
  if l.first then do
    let (header, l) ← loadHeader l
    loadBody env header l
  else loadBody env .init l

/-- The calls of `load_raw` until the end of the file; every call reads an rdataset at least. -/
def loadSteps (env : LoadEnv) : ℕ → LoadCtx → Exec LoadCtx
  | 0, _ => .error .overrun
  | fuel + 1, l => do
    let (done, l) ← loadRaw env l
    if done then pure l else loadSteps env fuel l

def load (file : Bytes) : Exec LoadCtx :=
  loadSteps env (file.length + 1) ⟨true, .init, .success, file, [], []⟩

end Bind9.RawZone
