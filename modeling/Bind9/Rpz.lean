import Bind9.NameOrder
import Bind9.Lib.Patricia

/-! # Response policy addresses

The radix tree of `lib/dns/rpz.c`: keys of four 32-bit words, `diff_keys`, `search`,
`dns_rpz_cidr_addip`, `dns_rpz_cidr_deleteip`, `dns_rpz_cidr_find`, and the conversion between
keys and owner names.

The parent pointers of the source are the path that a search has gone down (`Patricia.Frame`,
innermost first); a loop over `node->parent` is a recursion over that path.  A key word may be
read behind the end of its array: what stands there is the parameter `beyond`, and every index
used is reported (`reads`). -/

namespace Bind9.Rpz

open Patricia

/-! ### Keys -/

/-- A `dns_rpz_cidr_key_t`. -/
structure Key where
  w0 : BitVec 32
  w1 : BitVec 32
  w2 : BitVec 32
  w3 : BitVec 32
deriving DecidableEq, Repr

/-- `key->w[i]`; behind the array anything may stand. -/
def Key.word (beyond : BitVec 32) (k : Key) : ℕ → BitVec 32
  | 0 => k.w0
  | 1 => k.w1
  | 2 => k.w2
  | 3 => k.w3
  | _ => beyond

/-- `key->w[i] = v`. -/
def Key.setWord (k : Key) (i : ℕ) (v : BitVec 32) : Key :=
  match i with
  | 0 => { k with w0 := v }
  | 1 => { k with w1 := v }
  | 2 => { k with w2 := v }
  | 3 => { k with w3 := v }
  | _ => k

def ADDR_V4MAPPED : BitVec 32 := 0xffff

def wordMask (b : ℕ) : BitVec 32 :=
  if b = 0 then BitVec.allOnes 32 else BitVec.allOnes 32 <<< (32 - b)

def ipBit (beyond : BitVec 32) (ip : Key) (bitno : ℕ) : Bool :=
  (1 &&& (ip.word beyond (bitno / 32) >>> (31 - bitno % 32))) == 1

def ffbit (w : BitVec 32) : ℕ :=
  let s := (w, 31)
  let s := if s.1 &&& 0xffff0000 ≠ 0 then (s.1 >>> 16, s.2 - 16) else s
  let s := if s.1 &&& 0xff00 ≠ 0 then (s.1 >>> 8, s.2 - 8) else s
  let s := if s.1 &&& 0xf0 ≠ 0 then (s.1 >>> 4, s.2 - 4) else s
  let s := if s.1 &&& 0xc ≠ 0 then (s.1 >>> 2, s.2 - 2) else s
  if s.1 &&& 2 ≠ 0 then s.2 - 1 else s.2

/-- The loop of `diff_keys` from word `i` on, for `steps` more words: where it stops and the
indices read. -/
def diffFrom (beyond : BitVec 32) (key1 key2 : Key) : ℕ → ℕ → ℕ × List ℕ
  | 0, i => (32 * i, [])
  | steps + 1, i =>
    let delta := key1.word beyond i ^^^ key2.word beyond i
    if delta ≠ 0 then (32 * i + ffbit delta, [i])
    else ((diffFrom beyond key1 key2 steps (i + 1)).1,
      i :: (diffFrom beyond key1 key2 steps (i + 1)).2)

/-- `diff_keys`: the first differing bit, at most both lengths, and the indices read.  The loop
runs while `32 * i <= maxbit`. -/
def diffKeys (beyond : BitVec 32) (key1 : Key) (bits1 : ℕ) (key2 : Key) (bits2 : ℕ) : ℕ × List ℕ :=
  let maxbit := min bits1 bits2
  let d := diffFrom beyond key1 key2 (maxbit / 32 + 1) 0
  (min d.1 maxbit, d.2)

/-! ### Nodes -/

inductive RpzType where
  | bad
  | qname
  | ip
  | nsdname
  | nsip
deriving DecidableEq, Repr

/-- `dns_rpz_cidr_flags_t`, one field for each bit. -/
structure Flags where
  ip : Bool
  ipData : Bool
  nsipv4 : Bool
  nsipv6 : Bool
  nsipData : Bool
deriving DecidableEq, Repr

namespace Flags

def none : Flags := ⟨false, false, false, false, false⟩

/-- `a | b`. -/
def union (a b : Flags) : Flags :=
  ⟨a.ip || b.ip, a.ipData || b.ipData, a.nsipv4 || b.nsipv4, a.nsipv6 || b.nsipv6,
    a.nsipData || b.nsipData⟩

/-- `a & ~b`. -/
def without (a b : Flags) : Flags :=
  ⟨a.ip && !b.ip, a.ipData && !b.ipData, a.nsipv4 && !b.nsipv4, a.nsipv6 && !b.nsipv6,
    a.nsipData && !b.nsipData⟩

/-- `(a & b) != 0`. -/
def meets (a b : Flags) : Bool :=
  a.ip && b.ip || a.ipData && b.ipData || a.nsipv4 && b.nsipv4 || a.nsipv6 && b.nsipv6 ||
    a.nsipData && b.nsipData

/-- `DNS_RPZ_CIDR_FG_IP_DATA | DNS_RPZ_CIDR_FG_NSIP_DATA`. -/
def data : Flags := ⟨false, true, false, false, true⟩

/-- `a & (DNS_RPZ_CIDR_FG_IP_DATA | DNS_RPZ_CIDR_FG_NSIP_DATA)`. -/
def dataOf (a : Flags) : Flags := ⟨false, a.ipData, false, false, a.nsipData⟩

end Flags

def getFlags (ip : Key) (bits : ℕ) (type : RpzType) : Flags :=
  if type = .nsip then
    if 96 ≤ bits ∧ ip.w0 = 0 ∧ ip.w1 = 0 ∧ ip.w2 = ADDR_V4MAPPED then
      ⟨false, false, true, false, true⟩
    else ⟨false, false, false, true, true⟩
  else ⟨true, true, false, false, false⟩

/-- A `dns_rpz_cidr_node_t`, without its links. -/
structure CidrNode where
  ip : Key
  bits : ℕ
  flags : Flags
deriving DecidableEq, Repr

/-- The key with everything behind its first `bits` bits cleared, as `new_node` copies it. -/
def Key.masked (ip : Key) (bits : ℕ) : Key :=
  let word := fun i (w : BitVec 32) =>
    if i < bits / 32 then w
    else if i = bits / 32 ∧ bits % 32 ≠ 0 then w &&& wordMask (bits % 32)
    else 0
  ⟨word 0 ip.w0, word 1 ip.w1, word 2 ip.w2, word 3 ip.w3⟩

def newNode (ip : Key) (bits : ℕ) (flags : Flags) : CidrNode :=
  ⟨ip.masked bits, bits, flags.without .data⟩

/-- `node->flags |= flags`. -/
def CidrNode.mark (a : CidrNode) (flags : Flags) : CidrNode := { a with flags := a.flags.union flags }

/-- The loop of `set_node_flags` over the parents. -/
def markPath (flags : Flags) (path : List (Frame CidrNode)) : List (Frame CidrNode) :=
  path.map (fun f => { f with label := f.label.mark (flags.without .data) })

/-! ### Search -/

/-- What `search` is called for. -/
structure Target where
  ip : Key
  bits : ℕ
  type : RpzType
  create : Bool
deriving DecidableEq, Repr

def Target.flags (tgt : Target) : Flags := getFlags tgt.ip tgt.bits tgt.type

def Target.dataFlag (tgt : Target) : Flags := tgt.flags.dataOf

/-- A node where it stands. -/
structure Place where
  path : List (Frame CidrNode)
  node : CidrNode
  left : BitTree CidrNode
  right : BitTree CidrNode
deriving DecidableEq, Repr

/-- What a call of `search` leaves behind. -/
structure Found where
  result : Result
  found : Option Place
  root : BitTree CidrNode
  reads : List ℕ
deriving DecidableEq, Repr

/-- What a call meets outside the tree: the word behind the arrays and whether its two
allocations succeed. -/
structure Surroundings where
  beyond : BitVec 32
  mem1 : Bool
  mem2 : Bool
deriving DecidableEq, Repr

/-- The loop of `search` at the tree `cur` below `path`. -/
def searchFrom (sur : Surroundings) (tgt : Target) :
    BitTree CidrNode → List (Frame CidrNode) → Result → Option Place → List ℕ → Found
  | .nil, path, findResult, found, reads =>
    if !tgt.create then ⟨findResult, found, plug path .nil, reads⟩
    else if !sur.mem1 then ⟨.nomemory, found, plug path .nil, reads⟩
    else
      ⟨.success, none,
        plug (markPath tgt.flags path) (.node ((newNode tgt.ip tgt.bits .none).mark tgt.flags) .nil .nil),
        reads⟩
  | .node a l r, path, findResult, found, reads =>
    if !a.flags.meets tgt.flags && !tgt.create then
      ⟨findResult, found, plug path (.node a l r), reads⟩
    else
      let d := diffKeys sur.beyond tgt.ip tgt.bits a.ip a.bits
      let dbit := d.1
      let reads := reads ++ d.2
      if dbit = tgt.bits then
        if tgt.bits = a.bits then
          if a.flags.meets tgt.dataFlag then
            if tgt.create then ⟨.exists, found, plug path (.node a l r), reads⟩
            else ⟨.success, some ⟨path, a, l, r⟩, plug path (.node a l r), reads⟩
          else if tgt.create then
            ⟨.success, some ⟨markPath tgt.flags path, a.mark tgt.flags, l, r⟩,
              plug (markPath tgt.flags path) (.node (a.mark tgt.flags) l r), reads⟩
          else ⟨findResult, found, plug path (.node a l r), reads⟩
        else if !tgt.create then ⟨findResult, found, plug path (.node a l r), reads⟩
        else if !sur.mem1 then ⟨.nomemory, found, plug path (.node a l r), reads⟩
        else
          -- the target becomes the parent of the current node
          let newParent := (newNode tgt.ip tgt.bits a.flags).mark tgt.flags
          let childNum := ipBit sur.beyond a.ip (tgt.bits + 1)
          let cur := BitTree.node a l r
          ⟨.success,
            some ⟨markPath tgt.flags path, newParent, if childNum then .nil else cur,
              if childNum then cur else .nil⟩,
            plug (markPath tgt.flags path) (join newParent childNum cur .nil),
            reads ++ [(tgt.bits + 1) / 32]⟩
      else if dbit = a.bits then
        let hit := a.flags.meets tgt.dataFlag
        let findResult := if hit then .partialmatch else findResult
        let found := if hit then some ⟨path, a, l, r⟩ else found
        let reads := reads ++ [dbit / 32]
        if ipBit sur.beyond tgt.ip dbit then
          searchFrom sur tgt r (⟨a, true, l⟩ :: path) findResult found reads
        else searchFrom sur tgt l (⟨a, false, r⟩ :: path) findResult found reads
      else if !tgt.create then ⟨findResult, found, plug path (.node a l r), reads⟩
      else if !(sur.mem1 && sur.mem2) then ⟨.nomemory, found, plug path (.node a l r), reads⟩
      else
        -- a fork above the current node, with the target beside it
        let sibling := (newNode tgt.ip tgt.bits .none).mark tgt.flags
        let newParent := (newNode tgt.ip dbit a.flags).mark (tgt.flags.without .data)
        let childNum := ipBit sur.beyond tgt.ip dbit
        ⟨.success,
          some ⟨⟨newParent, childNum, .node a l r⟩ :: markPath tgt.flags path, sibling, .nil, .nil⟩,
          plug (markPath tgt.flags path) (join newParent childNum (.node sibling .nil .nil) (.node a l r)),
          reads ++ [dbit / 32]⟩

def search (sur : Surroundings) (tgt : Target) (root : BitTree CidrNode) : Found :=
  searchFrom sur tgt root [] .notfound none []

/-! ### Deletion -/

def treeFlags : BitTree CidrNode → Flags
  | .nil => .none
  | .node a _ _ => a.flags

/-- The loop of `dns_rpz_cidr_deleteip` that clears the summary flags, over the parents of a node
with the flags `childFlags`. -/
def clearPath (flags : Flags) : Flags → List (Frame CidrNode) → List (Frame CidrNode)
  | _, [] => []
  | childFlags, f :: path =>
    if f.label.flags.meets flags.dataOf || childFlags.meets flags ||
        (treeFlags f.other).meets flags then f :: path
    else
      let cleared := f.label.flags.without flags
      { f with label := { f.label with flags := cleared } } :: clearPath flags cleared path

/-- No data and at most one child. -/
def useless (a : CidrNode) (l r : BitTree CidrNode) : Bool :=
  (l == .nil || r == .nil) && !a.flags.meets .data

/-- The child that replaces a useless node. -/
def onlyChild (l r : BitTree CidrNode) : BitTree CidrNode := if l == .nil then r else l

/-- The loop of `dns_rpz_cidr_deleteip` that removes useless nodes, at the node `a` with the
children `l` and `r`. -/
def collapse : List (Frame CidrNode) → CidrNode → BitTree CidrNode → BitTree CidrNode → BitTree CidrNode
  | [], a, l, r => if useless a l r then onlyChild l r else .node a l r
  | f :: path, a, l, r =>
    if useless a l r then
      if f.right then collapse path f.label f.other (onlyChild l r)
      else collapse path f.label (onlyChild l r) f.other
    else plug (f :: path) (.node a l r)

/-- `dns_rpz_cidr_deleteip` once the node is found. -/
def deleteAt (flags : Flags) (tgt : Place) : BitTree CidrNode :=
  let own := tgt.node.flags.without flags.dataOf
  -- the first round of the clearing loop is for the node itself
  if own.meets flags.dataOf || (treeFlags tgt.left).meets flags || (treeFlags tgt.right).meets flags then
    collapse tgt.path { tgt.node with flags := own } tgt.left tgt.right
  else
    let cleared := own.without flags
    collapse (clearPath flags cleared tgt.path) { tgt.node with flags := cleared } tgt.left tgt.right

/-! ### Text -/

/-- `strtoul` up to its digits: blanks, a sign, and `0x` in front of a hexadecimal digit. -/
def isSpace (c : UInt8) : Bool := c == 32 || (9 ≤ c && c ≤ 13)

/-- The value of a digit, in bases up to 16. -/
def digitValue (c : UInt8) : ℕ :=
  if 48 ≤ c ∧ c ≤ 57 then c.toNat - 48
  else if 97 ≤ c ∧ c ≤ 102 then c.toNat - 87
  else if 65 ≤ c ∧ c ≤ 70 then c.toNat - 55
  else 16

def isDigit (base : ℕ) (c : UInt8) : Bool := decide (digitValue c < base)

/-- The number a run of digits stands for. -/
def digitsValue (base : ℕ) (ds : Bytes) : ℕ := ds.foldl (fun n c => n * base + digitValue c) 0

/-- `strtoul` on a terminated string, with 64-bit `unsigned long`: the value and the rest. -/
def strtoul (base : ℕ) (s : Bytes) : ℕ × Bytes :=
  let t := s.dropWhile isSpace
  let (neg, t) := match t with
    | 45 :: t => (true, t)
    | 43 :: t => (false, t)
    | t => (false, t)
  let t := match base, t with
    | 16, 48 :: x :: d :: t => if (x == 120 || x == 88) && isDigit 16 d then d :: t else 48 :: x :: d :: t
    | _, t => t
  let ds := t.takeWhile (isDigit base)
  if ds = [] then (0, s)
  else
    let n := min (digitsValue base ds) (2 ^ 64 - 1)
    let v := if neg && decide (digitsValue base ds < 2 ^ 64) then (2 ^ 64 - n) % 2 ^ 64 else n
    (v, t.dropWhile (isDigit base))

/-- One byte of a label in the output of `dns_name_totext`. -/
def charText (c : UInt8) : Bytes :=
  if c = 0x40 ∨ c = 0x24 ∨ c = 0x22 ∨ c = 0x28 ∨ c = 0x29 ∨ c = 0x2e ∨ c = 0x3b ∨ c = 0x5c then [0x5c, c]
  else if 0x20 < c ∧ c < 0x7f then [c]
  else [0x5c, 0x30 + c / 100 % 10, 0x30 + c / 10 % 10, 0x30 + c % 10]

/-- `dns_name_format` for a relative name. -/
def formatText : List Label → Bytes
  | [] => [0x40]
  | [l] => l.flatMap charText
  | l :: ls => l.flatMap charText ++ 0x2e :: formatText ls

/-- `snprintf` with `%d` or `%x`. -/
def numText (base n : ℕ) : Label := (Nat.toDigits base n).map (fun c => UInt8.ofNat c.toNat)

/-- The sixteen-bit words of a key, the last one first. -/
def words16 (ip : Key) : List ℕ :=
  [ip.w3, ip.w2, ip.w1, ip.w0].flatMap (fun w => [w.toNat % 65536, w.toNat / 65536])

/-- The loop of `ip2name` over the words of an IPv6 address; `skip` while the zeros behind `zz`
are passed over. -/
def ip6Labels (zeros skip : Bool) : List ℕ → List Label
  | [] => []
  | w :: ws =>
    if skip && w == 0 then ip6Labels zeros true ws
    else if w ≠ 0 ∨ zeros ∨ ws = [] ∨ ws.head? ≠ some 0 then
      numText 16 w :: ip6Labels zeros false ws
    else [0x7a, 0x7a] :: ip6Labels true true ws

/-- The labels of the text that `ip2name` builds. -/
def ip2labels (ip : Key) (bits : ℕ) : List Label :=
  if 96 < bits ∧ ip.w0 = 0 ∧ ip.w1 = 0 ∧ ip.w2 = ADDR_V4MAPPED then
    let w := ip.w3.toNat
    [numText 10 (bits - 96), numText 10 (w % 256), numText 10 (w / 256 % 256),
      numText 10 (w / 65536 % 256), numText 10 (w / 16777216)]
  else numText 10 bits :: ip6Labels false false (words16 ip)

/-- `dns_name_fromtext` for a text made of these labels, relative to `origin`: there is room for
255 bytes. -/
def fromLabels (labels : List Label) (origin : Name) : Option Name :=
  if 255 < Name.length ⟨labels⟩ + origin.length then none else some ⟨labels ++ origin.labels⟩

/-! ### The database -/

structure BuildOptions where
  rpzNsip : Bool
  rpzNsdname : Bool
deriving DecidableEq, Repr

/-- A `dns_rpz_cidr_t`. -/
structure Cidr where
  haveNsdname : Bool
  root : BitTree CidrNode
  ipName : Name
  nsipName : Name
  nsdnameName : Name
deriving DecidableEq, Repr

/-- `ip2name`, for the search name. -/
def ip2name (cidr : Cidr) (ip : Key) (bits : ℕ) (type : RpzType) : Option Name :=
  fromLabels (ip2labels ip bits) (if type = .nsip then cidr.nsipName else cidr.ipName)

def setType (opts : BuildOptions) (cidr : Cidr) (name : Name) : RpzType :=
  if name.issubdomain cidr.ipName then .ip
  else if opts.rpzNsip && name.issubdomain cidr.nsipName then .nsip
  else if opts.rpzNsdname && name.issubdomain cidr.nsdnameName then .nsdname
  else .qname

/-- The loop over the four octets of an IPv4 address; `none` for the text means that the
terminating zero was read. -/
def readOctets : ℕ → ℕ → Option Bytes → BitVec 32 → Option (BitVec 32 × Option Bytes)
  | 0, _, cp, w => some (w, cp)
  | _ + 1, _, none, _ => none
  | n + 1, i, some cp, w =>
    match strtoul 10 cp with
    | (l, rest) =>
      if 255 < l then none
      else match rest with
        | [] => readOctets n (i + 8) none (w ||| (BitVec.ofNat 32 l <<< i))
        | c :: rest =>
          if c = 0x2e then readOctets n (i + 8) (some rest) (w ||| (BitVec.ofNat 32 l <<< i))
          else none

def clearWords (key : Key) (i j : ℕ) : Key :=
  ((List.range' i (j - i)).filter (fun n => n % 2 == 0)).foldl (fun k n => k.setWord (3 - n / 2) 0) key

/-- The loop over the words of an IPv6 address, with `ipLabels` labels left and at word `i`. -/
def readWords : ℕ → ℕ → Option Bytes → Key → Option (Key × Option Bytes)
  | 0, _, cp, key => some (key, cp)
  | _ + 1, _, none, _ => none
  | ipLabels + 1, i, some cp, key =>
    if 8 ≤ i then some (key, some cp)
    else if cp.take 2 = [0x7a, 0x7a] ∧ (cp.length = 2 ∨ cp.getD 2 0 = 0x2e) ∧ i ≤ 6 then
      let j := max (i + 1) (9 - (ipLabels + 1))
      readWords ipLabels j (if cp.length = 2 then none else some (cp.drop 3)) (clearWords key i j)
    else
      match strtoul 16 cp with
      | (l, rest) =>
        if 0xffff < l then none
        else
          let key := if i % 2 = 0 then key.setWord (3 - i / 2) (BitVec.ofNat 32 l)
            else key.setWord (3 - i / 2) (key.word 0 (3 - i / 2) ||| (BitVec.ofNat 32 l <<< 16))
          match rest with
          | [] => readWords ipLabels (i + 1) none key
          | c :: rest => if c = 0x2e then readWords ipLabels (i + 1) (some rest) key else none

/-- The check for ones behind the prefix, from bit `bits` on.  At a word boundary the mask has
every bit set, so whole words behind the prefix are not looked at. -/
def onesBehind (key : Key) (bits : ℕ) : Bool :=
  decide (bits < 128) && bits % 32 != 0 && (key.word 0 (bits / 32) &&& ~~~wordMask (bits % 32)) != 0

/-- The address and prefix length in the text; `init` is what the key holds before. -/
def readKey (init : Key) (ipLabels : ℕ) (text : Bytes) : Option (Key × ℕ) :=
  match strtoul 10 text with
  | (bits, 0x2e :: cp) =>
    if bits < 1 ∨ 128 < bits then none
    else if ipLabels = 4 ∧ (0x7a : UInt8) ∉ cp then
      if 32 < bits then none
      else match readOctets 4 0 (some cp) 0 with
        | some (w, none) => some (⟨0, 0, ADDR_V4MAPPED, w⟩, bits + 96)
        | _ => none
    else match readWords ipLabels 0 (some cp) init with
      | some (key, none) => some (key, bits)
      | _ => none
  | _ => none

/-- `name2ipkey`; `init` is what the key holds before. -/
def name2ipkey (init : Key) (cidr : Cidr) (name : Name) (type : RpzType) : Option (Key × ℕ) :=
  if name.countlabels < cidr.ipName.countlabels + 2 then none
  else
    let ipLabels := name.countlabels - cidr.ipName.countlabels - 1
    match readKey init ipLabels (formatText (name.splitHead cidr.ipName.countlabels).labels) with
    | none => none
    | some (key, bits) =>
      if onesBehind key bits then none
      else match ip2name cidr key bits type with
        | none => none
        | some n => if name.equal n then some (key, bits) else none

/-- `dns_rpz_cidr_addip`; the indices read come with it. -/
def addip (opts : BuildOptions) (sur : Surroundings) (init : Key) (cidr : Cidr) (name : Name) :
    Cidr × List ℕ :=
  match setType opts cidr name with
  | .nsdname => ({ cidr with haveNsdname := true }, [])
  | .qname | .bad => (cidr, [])
  | type =>
    match name2ipkey init cidr name type with
    | none => (cidr, [])
    | some (ip, bits) =>
      let f := search sur ⟨ip, bits, type, true⟩ cidr.root
      ({ cidr with root := f.root }, f.reads)

def deleteip (opts : BuildOptions) (sur : Surroundings) (init : Key) (cidr : Cidr) (name : Name) :
    Cidr × List ℕ :=
  match setType opts cidr name with
  | .nsdname | .qname | .bad => (cidr, [])
  | type =>
    match name2ipkey init cidr name type with
    | none => (cidr, [])
    | some (ip, bits) =>
      let f := search sur ⟨ip, bits, type, false⟩ cidr.root
      match f.result, f.found with
      | .success, some place => ({ cidr with root := deleteAt (getFlags ip bits type) place }, f.reads)
      | _, _ => (cidr, f.reads)

/-- An `isc_netaddr_t`: the bytes of the address in network order. -/
inductive NetAddr where
  | inet (addr : BitVec 32)
  | inet6 (a b c d : BitVec 32)
  | unspec
deriving DecidableEq, Repr

def NetAddr.key : NetAddr → Option Key
  | .inet addr => some ⟨0, 0, ADDR_V4MAPPED, addr⟩
  | .inet6 a b c d => some ⟨a, b, c, d⟩
  | .unspec => none

/-- The answer of `dns_rpz_cidr_find`: the result, and the prefix length and search name. -/
structure Answer where
  result : Result
  bits : Option ℕ
  searchName : Option Name
deriving DecidableEq, Repr

/-- The end of `dns_rpz_cidr_find`: the prefix length and the name of the node found. -/
def Found.answer (cidr : Cidr) (type : RpzType) (f : Found) : Answer :=
  match f.result, f.found with
  | .success, some place | .partialmatch, some place =>
    match ip2name cidr place.node.ip place.node.bits type with
    | some n => ⟨.success, some place.node.bits, some n⟩
    | none => ⟨.nospace, some place.node.bits, none⟩
  | r, _ => ⟨r, none, none⟩

/-- `dns_rpz_cidr_find`; the indices read come with it. -/
def find (sur : Surroundings) (cidr : Cidr) (addr : NetAddr) (type : RpzType) : Answer × List ℕ :=
  match addr.key with
  | none => (⟨.notfound, none, none⟩, [])
  | some ip =>
    let f := search sur ⟨ip, 128, type, false⟩ cidr.root
    (f.answer cidr type, f.reads)

end Bind9.Rpz
