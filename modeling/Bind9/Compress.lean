import Bind9.Name

/-! # The name compression table

`lib/dns/compress.c` and `dns_name_towire` of `lib/dns/name.c`.  A `dns_compress_t` holds 64
chains of nodes; a node remembers a name and the message offset at which that name was
written.  The first sixteen nodes live in the array `initialnodes` inside the context, at the
index given by the node count, the others on the heap; a chain is the list of the addresses
(`NodeRef`) reached through the `next` pointers, and the contents are looked up in `node`, so
that a reused `initialnodes` entry changes every chain it is on.

`isc_mem_get` may fail: the argument `mem` of `add` says for each label whether the node for
it can be allocated. -/

namespace Bind9

open Function

def DNS_COMPRESS_GLOBAL14 : UInt32 := 1
def DNS_COMPRESS_ALL : UInt32 := 1
def DNS_COMPRESS_CASESENSITIVE : UInt32 := 2

def DNS_COMPRESS_TABLESIZE : ℕ := 64
def DNS_COMPRESS_INITIALNODES : ℕ := 16

/-- An `isc_buffer_t`: the used region and the size of the whole buffer. -/
structure Buffer where
  data : Bytes
  length : ℕ
deriving DecidableEq, Repr

namespace Buffer

def used (b : Buffer) : ℕ := b.data.length

/-- `memcpy` into the unused region followed by `isc_buffer_add`. -/
def put (b : Buffer) (bs : Bytes) : Buffer := { b with data := b.data ++ bs }

@[simp] theorem put_used (b : Buffer) (bs : Bytes) :
    (b.put bs).used = b.used + bs.length := by simp [put, used]

@[simp] theorem put_length (b : Buffer) (bs : Bytes) : (b.put bs).length = b.length := rfl

@[simp] theorem put_data (b : Buffer) (bs : Bytes) : (b.put bs).data = b.data ++ bs := rfl

end Buffer

/-- The address of a `dns_compressnode_t`. -/
inductive NodeRef where
  | initial (i : ℕ)
  | heap (a : ℕ)
deriving DecidableEq, Repr

/-- A `dns_compressnode_t`; `r` and `labels` of the source are the name. -/
structure CompressNode where
  name : Name
  offset : ℕ
  count : ℕ
deriving DecidableEq, Repr

/-- A `dns_compress_t`.  `fresh` is the next heap address `isc_mem_get` hands out. -/
structure Compress where
  allowed : UInt32
  table : ℕ → List NodeRef
  node : NodeRef → CompressNode
  count : ℕ
  fresh : ℕ

namespace Compress

def init : Compress where
  allowed := 0
  table := fun _ => []
  node := fun _ => ⟨⟨[]⟩, 0, 0⟩
  count := 0
  fresh := 0

variable (c : Compress)

def setmethods (allowed : UInt32) : Compress :=
  { c with allowed := (c.allowed &&& ~~~DNS_COMPRESS_ALL) ||| (allowed &&& DNS_COMPRESS_ALL) }

def getmethods : UInt32 := c.allowed &&& DNS_COMPRESS_ALL

def setsensitive (sensitive : Bool) : Compress :=
  if sensitive then { c with allowed := c.allowed ||| DNS_COMPRESS_CASESENSITIVE }
  else { c with allowed := c.allowed &&& ~~~DNS_COMPRESS_CASESENSITIVE }

def getsensitive : Bool := c.allowed &&& DNS_COMPRESS_CASESENSITIVE != 0

/-- The chain a name belongs on. -/
def bucket (n : Name) : ℕ := n.hash % DNS_COMPRESS_TABLESIZE

/-- The test made on every node of a chain. -/
def matchesName (nname tname : Name) : Bool :=
  if c.getsensitive then nname.caseequal tname else nname.equal tname

/-- The first matching node on the chain of `tname`. -/
def lookup (tname : Name) : Option CompressNode :=
  ((c.table (bucket tname)).map c.node).find? (fun nd => c.matchesName nd.name tname)

/-- The loop of `dns_compress_findglobal` over the suffixes from label `n` on; the first
argument counts the suffixes left. -/
def findglobalFrom (c : Compress) (name : Name) : ℕ → ℕ → Option (ℕ × CompressNode)
  | 0, _ => none
  | k + 1, n =>
    match c.lookup (name.getlabelsequence n (name.countlabels - n)) with
    | some node => some (n, node)
    | none => findglobalFrom c name k (n + 1)

/-- `dns_compress_findglobal`: the prefix not covered by the match, and the offset. -/
def findglobal (name : Name) : Option (Name × ℕ) :=
  if c.count = 0 then none
  else match c.findglobalFrom name (name.countlabels - 1) 0 with
    | none => none
    | some (n, node) => some (name.getlabelsequence 0 n, node.offset)

/-- Fill a node and put it at the head of its chain. -/
def push (ref : NodeRef) (tname : Name) (toffset : ℕ) : Compress :=
  { c with
    node := update c.node ref ⟨tname, toffset, c.count⟩
    table := update c.table (bucket tname) (ref :: c.table (bucket tname))
    count := (c.count + 1) % 65536 }

/-- The loop of `dns_compress_add`; the first argument is `count`. -/
def addLoop (mem : ℕ → Bool) (name : Name) (offset : ℕ) : ℕ → ℕ → ℕ → Compress → Compress
  | 0, _, _, c => c
  | count + 1, start, n, c =>
    if 0x4000 ≤ offset then c
    else
      let tname := name.getlabelsequence start n
      let toffset := (offset + (name.length - tname.length)) % 65536
      if c.count < DNS_COMPRESS_INITIALNODES then
        addLoop mem name offset count (start + 1) (n - 1) (c.push (.initial c.count) tname toffset)
      else if mem start then
        addLoop mem name offset count (start + 1) (n - 1)
          ({ c with fresh := c.fresh + 1 }.push (.heap c.fresh) tname toffset)
      else c

def add (mem : ℕ → Bool) (c : Compress) (name pfx : Name) (offset : ℕ) : Compress :=
  addLoop mem name offset
    (if pfx.isabsolute then pfx.countlabels - 1 else pfx.countlabels) 0 name.countlabels c

/-- The inner loop of `dns_compress_rollback` on one chain, with the node count. -/
def rollbackChain (c : Compress) (offset : ℕ) : List NodeRef → ℕ → List NodeRef × ℕ
  | [], count => ([], count)
  | r :: rest, count =>
    if offset ≤ (c.node r).offset then rollbackChain c offset rest ((count + 65535) % 65536)
    else (r :: rest, count)

/-- One turn of the outer loop of `dns_compress_rollback`. -/
def rollbackBucket (offset : ℕ) (c : Compress) (i : ℕ) : Compress :=
  let r := c.rollbackChain offset (c.table i) c.count
  { c with table := update c.table i r.1, count := r.2 }

def rollback (offset : ℕ) : Compress :=
  (List.range DNS_COMPRESS_TABLESIZE).foldl (rollbackBucket offset) c

end Compress

def uint16Bytes (v : ℕ) : Bytes := [UInt8.ofNat (v / 256), UInt8.ofNat (v % 256)]

/-- `dns_name_towire`; `nocompress` is the attribute `DNS_NAMEATTR_NOCOMPRESS` of the name. -/
def Name.towire (mem : ℕ → Bool) (name : Name) (nocompress : Bool) (c : Compress)
    (target : Buffer) : Result × Compress × Buffer :=
  let offset := target.used % 65536
  let gf :=
    if !nocompress && (c.getmethods &&& DNS_COMPRESS_GLOBAL14 != 0) then c.findglobal name
    else none
  -- offsets beyond 14 bits cannot be pointed at
  let gf := gf.filter (fun g => decide (g.2 < 0x4000))
  -- a pointer that does not make the message shorter is not used
  let gf := gf.filter (fun g => decide (g.1.length + 2 < name.length))
  match gf with
  | some (gp, go) =>
    if target.length - target.used < gp.length then (.nospace, c, target)
    else
      let target := target.put gp.ndata
      if target.length - target.used < 2 then (.nospace, c, target)
      else
        let target := target.put (uint16Bytes (go ||| 0xc000))
        (.success, if gp.length ≠ 0 then c.add mem name gp offset else c, target)
  | none =>
    if target.length - target.used < name.length then (.nospace, c, target)
    else (.success, c.add mem name name offset, target.put name.ndata)

end Bind9
