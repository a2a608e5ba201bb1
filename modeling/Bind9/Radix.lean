import Bind9.Name
import Bind9.Lib.Patricia

/-! # Radix trees of address prefixes

`isc_radix_search` and `isc_radix_insert` of `lib/isc/radix.c`.  A tree holds IPv4 and IPv6 prefixes
together: each node has two ordinals and two data pointers, one for each family, and -1 and no
pointer where the family has no entry.  Nodes without a prefix ("glue") only branch.

The parent pointers are the path that the descent has taken (`Patricia.Frame`); the climb along
`node->parent` is a recursion over it.  A failing `INSIST` is the answer `none`. -/

namespace Bind9.Radix

open Patricia

/-! ### Addresses and prefixes -/

/-- An `isc_netaddr_t`, in network byte order. -/
inductive NetAddr where
  | inet (bytes : Vector (BitVec 8) 4)
  | inet6 (bytes : Vector (BitVec 8) 16)
deriving DecidableEq

/-- The address families of prefixes; `unspec` is "any" or "none". -/
inductive Family where
  | unspec
  | inet
  | inet6
deriving DecidableEq, Repr

def Family.is6 : Family → Bool
  | .inet6 => true
  | _ => false

/-- An `isc_prefix_t`. -/
structure Prefix where
  family : Family
  bitlen : ℕ
  add : List (BitVec 8)
deriving DecidableEq, Repr

def NetAddr.family : NetAddr → Family
  | .inet _ => .inet
  | .inet6 _ => .inet6

def NetAddr.bytes : NetAddr → List (BitVec 8)
  | .inet b => b.toList
  | .inet6 b => b.toList

/-- `NETADDR_TO_PREFIX_T`: the bytes that hold the first `bits` bits, the others zero. -/
def toPrefix (na : Option NetAddr) (bits : ℕ) : Prefix :=
  match na with
  | none => ⟨.unspec, 0, List.replicate 16 0⟩
  | some a =>
    let used := a.bytes.take ((bits + 7) / 8)
    ⟨a.family, bits, used ++ List.replicate (16 - used.length) 0⟩

/-- `BIT_TEST(addr[i >> 3], 0x80 >> (i & 7))`. -/
def bitTest (add : List (BitVec 8)) (i : ℕ) : Bool := add.getD (i / 8) 0 &&& (0x80 >>> (i % 8)) != 0

def compWithMask (addr dest : List (BitVec 8)) (mask : ℕ) : Bool :=
  if mask = 0 then true
  else if addr.take (mask / 8) = dest.take (mask / 8) then
    let n := mask / 8
    let m : BitVec 8 := BitVec.allOnes 8 <<< (8 - mask % 8)
    mask % 8 == 0 || addr.getD n 0 &&& m == dest.getD n 0 &&& m
  else false

def Prefix.Legal (p : Prefix) : Prop :=
  p.family = .inet ∧ p.bitlen ≤ 32 ∨ p.family = .inet6 ∧ p.bitlen ≤ 128 ∨ p.family = .unspec ∧ p.bitlen = 0

instance (p : Prefix) : Decidable p.Legal :=
  inferInstanceAs (Decidable (p.family = .inet ∧ p.bitlen ≤ 32 ∨ p.family = .inet6 ∧ p.bitlen ≤ 128 ∨
    p.family = .unspec ∧ p.bitlen = 0))

/-- The copy that `_ref_prefix` makes of a prefix on the stack: for IPv4 only four bytes are set. -/
def Prefix.copied (junk : List (BitVec 8)) (p : Prefix) : Prefix :=
  if p.family = .inet6 then p else { p with add := p.add.take 4 ++ junk }

/-! ### Nodes -/

/-- An `isc_radix_node_t`, without its links; the data are the two booleans of the IP table. -/
structure RadixNode where
  bit : ℕ
  pfx : Option Prefix
  num4 : ℤ
  num6 : ℤ
  data4 : Option Bool
  data6 : Option Bool
deriving DecidableEq, Repr

def RadixNode.num (a : RadixNode) (is6 : Bool) : ℤ := if is6 then a.num6 else a.num4

def RadixNode.data (a : RadixNode) (is6 : Bool) : Option Bool := if is6 then a.data6 else a.data4

structure RadixTree where
  head : BitTree RadixNode
  numAdded : ℤ
  numActive : ℤ
deriving DecidableEq, Repr

def RADIX_MAXBITS : ℕ := 128

/-! ### Search -/

/-- The stack of the nodes with a prefix on the way down, the last one included. -/
def searchStack (addr : List (BitVec 8)) (bitlen : ℕ) : BitTree RadixNode → List RadixNode
  | .nil => []
  | .node a l r =>
    let here := if a.pfx.isSome then [a] else []
    if a.bit < bitlen then
      if bitTest addr a.bit then here ++ searchStack addr bitlen r else here ++ searchStack addr bitlen l
    else here

/-- One round of the loop that takes the stack down again. -/
def pick (pfx : Prefix) (target : Option RadixNode) (a : RadixNode) : Option RadixNode :=
  match a.pfx with
  | none => target
  | some p =>
    if compWithMask p.add pfx.add p.bitlen then
      if a.num pfx.family.is6 ≠ -1 ∧ ∀ t ∈ target, t.num pfx.family.is6 > a.num pfx.family.is6 then some a
      else target
    else target

variable (radix : RadixTree)

/-- `isc_radix_search`: the node found, or `ISC_R_NOTFOUND`. -/
def search (pfx : Prefix) : Option RadixNode :=
  (searchStack pfx.add pfx.bitlen radix.head).reverse.foldl (pick pfx) none

/-! ### Insertion -/

/-- A node where it stands. -/
structure Place where
  path : List (Frame RadixNode)
  node : RadixNode
  left : BitTree RadixNode
  right : BitTree RadixNode
deriving DecidableEq, Repr

def Place.root (p : Place) : BitTree RadixNode := plug p.path (.node p.node p.left p.right)

/-- The side on which an insertion goes on below a node. -/
def goesRight (addr : List (BitVec 8)) (bit : ℕ) : Bool := decide (bit < RADIX_MAXBITS) && bitTest addr bit

/-- The first loop of `isc_radix_insert`: down to a node with a prefix that is long enough, or to
where the way ends; `above` is the node before. -/
def descend (addr : List (BitVec 8)) (bitlen : ℕ) :
    BitTree RadixNode → List (Frame RadixNode) → Option Place → Option Place
  | .nil, _, above => above
  | .node a l r, path, _ =>
    let here : Place := ⟨path, a, l, r⟩
    if a.bit < bitlen ∨ a.pfx = none then
      if goesRight addr a.bit then descend addr bitlen r (⟨a, true, l⟩ :: path) (some here)
      else descend addr bitlen l (⟨a, false, r⟩ :: path) (some here)
    else some here

/-- The first bit that is set in a byte that is not zero. -/
def firstBit (r : BitVec 8) : ℕ := ((List.range 8).find? (fun j => r &&& (0x80 >>> j) != 0)).getD 8

/-- The loop that looks for the first different bit, from byte `i` on, for `steps` more bytes. -/
def differFrom (addr test : List (BitVec 8)) : ℕ → ℕ → ℕ
  | 0, i => 8 * i
  | steps + 1, i =>
    let r := addr.getD i 0 ^^^ test.getD i 0
    if r = 0 then differFrom addr test steps (i + 1) else 8 * i + firstBit r

/-- `differ_bit`, at most `check_bit`. -/
def differBit (addr test : List (BitVec 8)) (checkBit : ℕ) : ℕ :=
  min (differFrom addr test ((checkBit + 7) / 8) 0) checkBit

/-- The loop over the parents: up while they test a bit behind the difference. -/
def climb (differ : ℕ) :
    List (Frame RadixNode) → RadixNode → BitTree RadixNode → BitTree RadixNode → Place
  | [], a, l, r => ⟨[], a, l, r⟩
  | f :: path, a, l, r =>
    if differ ≤ f.label.bit then
      if f.right then climb differ path f.label f.other (.node a l r)
      else climb differ path f.label (.node a l r) f.other
    else ⟨f :: path, a, l, r⟩

/-- The ordinal a merged entry gets: counted on from the entries of the destination. -/
def rebase (numAdded num : ℤ) : ℤ := if num ≠ -1 then numAdded + num else -1

variable (source : Option RadixNode)

/-- The ordinals and data of a node that is new in the tree. -/
def newNode (fam : Family) (bit : ℕ) (q : Prefix) :
    RadixNode × ℤ :=
  match source with
  | some s =>
    (⟨bit, some q, rebase radix.numAdded s.num4, rebase radix.numAdded s.num6, s.data4, s.data6⟩,
      radix.numAdded)
  | none =>
    let next := radix.numAdded + 1
    (match fam with
      | .unspec => ⟨bit, some q, next, next, none, none⟩
      | .inet => ⟨bit, some q, next, -1, none, none⟩
      | .inet6 => ⟨bit, some q, -1, next, none, none⟩, next)

/-- An entry for a prefix that the tree has already: ordinals are set where there are none.  For
IPv6 the merge looks at the ordinal the source has for IPv4. -/
def renumber (fam : Family) (a : RadixNode) : RadixNode × ℤ :=
  match source with
  | some s =>
    let a := if a.num4 = -1 ∧ s.num4 ≠ -1 then
      { a with num4 := radix.numAdded + s.num4, data4 := s.data4 } else a
    let a := if a.num6 = -1 ∧ s.num4 ≠ -1 then
      { a with num6 := radix.numAdded + s.num6, data6 := s.data6 } else a
    (a, radix.numAdded)
  | none =>
    let next := radix.numAdded + 1
    match fam with
    | .unspec =>
      ({ a with num4 := if a.num4 = -1 then next else a.num4, num6 := if a.num6 = -1 then next else a.num6 },
        if a.num4 = -1 ∨ a.num6 = -1 then next else radix.numAdded)
    | .inet => if a.num4 = -1 then ({ a with num4 := next }, next) else (a, radix.numAdded)
    | .inet6 => if a.num6 = -1 then ({ a with num6 := next }, next) else (a, radix.numAdded)

/-- The ordinals and data of a glue node that gets a prefix. -/
def numberGlue (fam : Family) (a : RadixNode) : RadixNode × ℤ :=
  match source with
  | some s =>
    let a := if s.num4 ≠ -1 then { a with num4 := radix.numAdded + s.num4, data4 := s.data4 } else a
    let a := if s.num6 ≠ -1 then { a with num6 := radix.numAdded + s.num6, data6 := s.data6 } else a
    (a, radix.numAdded)
  | none =>
    let next := radix.numAdded + 1
    match fam with
    | .unspec => ({ a with num4 := next, num6 := next }, next)
    | .inet => ({ a with num4 := next }, next)
    | .inet6 => ({ a with num6 := next }, next)

/-- What an insertion meets outside the tree: whether its allocations succeed, and the bytes behind a
copied IPv4 address. -/
structure Surroundings where
  memNode : Bool
  memGlue : Bool
  memPrefix : Bool
  junk : List (BitVec 8)
deriving DecidableEq, Repr

/-- `_ref_prefix`: the prefix of a node of another tree is shared, the one on the stack is copied.
`none` when the `INSIST` fails, `some none` without memory. -/
def refPrefix (sur : Surroundings) (source : Option RadixNode) (pfx : Prefix) : Option (Option Prefix) :=
  if ¬ pfx.Legal then none
  else match source with
    | some _ => some (some pfx)
    | none => if sur.memPrefix then some (some (pfx.copied sur.junk)) else some none

/-- The tree with a node put to its place. -/
def inserted (place : Place) (numAdded numActive : ℤ) : Option (Result × RadixTree × Option Place) :=
  some (.success, ⟨place.root, numAdded, numActive⟩, some place)

/-- The second half of `isc_radix_insert`, when the place and the first different bit are known. -/
def insertAt (sur : Surroundings) (radix : RadixTree) (source : Option RadixNode) (pfx : Prefix)
    (test : List (BitVec 8)) (differ : ℕ) (place : Place) : Option (Result × RadixTree × Option Place) :=
  if differ = pfx.bitlen ∧ place.node.bit = pfx.bitlen then
    match place.node.pfx with
    | some _ =>
      let n := renumber radix source pfx.family place.node
      inserted { place with node := n.1 } n.2 radix.numActive
    | none =>
      match refPrefix sur source pfx with
      | none => none
      | some none => some (.nomemory, radix, none)
      | some (some q) =>
        if place.node.num4 = -1 ∧ place.node.num6 = -1 ∧ place.node.data4 = none ∧ place.node.data6 = none then
          let n := numberGlue radix source pfx.family { place.node with pfx := some q }
          inserted { place with node := n.1 } n.2 radix.numActive
        else none
  else if !sur.memNode then some (.nomemory, radix, none)
  else if place.node.bit ≠ differ ∧ pfx.bitlen ≠ differ ∧ !sur.memGlue then some (.nomemory, radix, none)
  else match refPrefix sur source pfx with
    | none => none
    | some none => some (.nomemory, radix, none)
    | some (some q) =>
      let n := newNode radix source pfx.family pfx.bitlen q
      let cur := BitTree.node place.node place.left place.right
      if place.node.bit = differ then
        -- below the node
        if goesRight pfx.add place.node.bit then
          if place.right = .nil then
            inserted ⟨⟨place.node, true, place.left⟩ :: place.path, n.1, .nil, .nil⟩ n.2 (radix.numActive + 1)
          else none
        else if place.left = .nil then
          inserted ⟨⟨place.node, false, place.right⟩ :: place.path, n.1, .nil, .nil⟩ n.2 (radix.numActive + 1)
        else none
      else if pfx.bitlen = differ then
        -- above the node
        if goesRight test pfx.bitlen then inserted ⟨place.path, n.1, .nil, cur⟩ n.2 (radix.numActive + 1)
        else inserted ⟨place.path, n.1, cur, .nil⟩ n.2 (radix.numActive + 1)
      else
        -- beside the node, below a glue node
        let glue : RadixNode := ⟨differ, none, -1, -1, none, none⟩
        inserted ⟨⟨glue, goesRight pfx.add differ, cur⟩ :: place.path, n.1, .nil, .nil⟩ n.2 (radix.numActive + 2)

/-- `isc_radix_insert`: the result, the tree, and where the node for the prefix is.  With a source
node its prefix is the one to be inserted. -/
def insert (sur : Surroundings) (radix : RadixTree) (source : Option RadixNode) (pfx : Prefix) :
    Option (Result × RadixTree × Option Place) :=
  if radix.head = .nil then
    if !sur.memNode then some (.nomemory, radix, none)
    else match refPrefix sur source pfx with
      | none => none
      | some none => some (.nomemory, radix, none)
      | some (some q) =>
        let n := newNode radix source pfx.family pfx.bitlen q
        inserted ⟨[], n.1, .nil, .nil⟩ n.2 (radix.numActive + 1)
  else match descend pfx.add pfx.bitlen radix.head [] none with
    | none => none
    | some place =>
      match place.node.pfx with
      | none => none
      | some t =>
        let checkBit := if place.node.bit < pfx.bitlen then place.node.bit else pfx.bitlen
        let differ := differBit pfx.add t.add checkBit
        insertAt sur radix source pfx t.add differ
          (climb differ place.path place.node place.left place.right)

end Bind9.Radix
