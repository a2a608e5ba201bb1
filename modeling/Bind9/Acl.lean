import Bind9.Radix

/-! # Address match lists

`dns_iptable_addprefix` and `dns_iptable_merge` of `lib/dns/iptable.c`, `dns_acl_match`,
`dns_aclelement_match` and `dns_acl_merge` of `lib/dns/acl.c`.

An ACL keeps its address prefixes in a radix tree and its other elements in an array; the order of
the configuration is kept in ordinals that both share (`node_count` is `num_added_node` of the radix
tree).  A null pointer that is followed, like a failing `INSIST`, is the answer `none`.

The ACLs `localhost` and `localnets` of the environment hold the addresses of the host's interfaces;
what they answer for a request is a parameter. -/

namespace Bind9

open Patricia Radix

/-! ### IP tables -/

/-- `node->data` after `dns_iptable_addprefix`: data that is there stays. -/
def setData (fam : Family) (pos : Bool) (a : RadixNode) : RadixNode :=
  match fam with
  | .unspec => { a with data4 := some (a.data4.getD pos), data6 := some (a.data6.getD pos) }
  | .inet => { a with data4 := some (a.data4.getD pos) }
  | .inet6 => { a with data6 := some (a.data6.getD pos) }

def iptableAddPrefix (sur : Surroundings) (radix : RadixTree) (na : Option NetAddr) (bitlen : ℕ) (pos : Bool) :
    Option (Result × RadixTree) :=
  let pfx := toPrefix na bitlen
  match insert sur radix none pfx with
  | some (.success, radix, some place) =>
    some (.success,
      { radix with head := Place.root { place with node := setData pfx.family pos place.node } })
  | some (r, radix, _) => some (r, radix)
  | none => none

/-- What `dns_iptable_merge` does to the node in the destination when the source is negated: what was
positive in the source is made negative. -/
def negateFrom (source a : RadixNode) : RadixNode :=
  { a with
    data4 := if source.data4 = some true then some false else a.data4
    data6 := if source.data6 = some true then some false else a.data6 }

/-- The loop of `dns_iptable_merge` over the nodes of the source. -/
def mergeNodes (sur : ℕ → Surroundings) (pos : Bool) : List RadixNode → ℕ → RadixTree →
    Option (Result × RadixTree)
  | [], _, radix => some (.success, radix)
  | s :: rest, i, radix =>
    match s.pfx with
    | none => mergeNodes sur pos rest i radix
    | some p =>
      match insert (sur i) radix (some s) p with
      | some (.success, radix, some place) =>
        mergeNodes sur pos rest (i + 1)
          { radix with
            head := Place.root (if pos then place else { place with node := negateFrom s place.node }) }
      | some (r, radix, _) => some (r, radix)
      | none => none

/-- The highest ordinal in a list of nodes. -/
def maxNode (nodes : List RadixNode) : ℤ := nodes.foldl (fun m a => max (max m a.num4) a.num6) 0

def iptableMerge (sur : ℕ → Surroundings) (tab source : RadixTree) (pos : Bool) :
    Option (Result × RadixTree) :=
  match mergeNodes sur pos source.head.labels 0 tab with
  | some (.success, radix) =>
    some (.success, { radix with
      numAdded := radix.numAdded + maxNode (source.head.labels.filter (fun a => a.pfx.isSome)) })
  | some (r, radix) => some (r, radix)
  | none => none

/-! ### Lists -/

mutual

/-- A `dns_acl_t`. -/
inductive Acl where
  | mk (radix : RadixTree) (elements : List AclElement)

inductive AclElement where
  | mk (kind : AclElementKind) (negative : Bool) (nodeNum : ℤ)

/-- The kinds of elements that are not kept in the radix tree. -/
inductive AclElementKind where
  | keyname (name : Name)
  | nestedacl (acl : Acl)
  | localhost
  | localnets

end

def Acl.radix : Acl → RadixTree
  | .mk radix _ => radix

def Acl.elements : Acl → List AclElement
  | .mk _ elements => elements

def Acl.nodeCount (a : Acl) : ℤ := a.radix.numAdded

namespace AclElement

def kind : AclElement → AclElementKind
  | .mk kind _ _ => kind

def negative : AclElement → Bool
  | .mk _ negative _ => negative

def nodeNum : AclElement → ℤ
  | .mk _ _ nodeNum => nodeNum

end AclElement

/-- A request: its address and the name it is signed with. -/
structure AclRequest where
  addr : NetAddr
  signer : Option Name

def AclRequest.signedBy (req : AclRequest) (name : Name) : Bool :=
  match req.signer with
  | some s => s.equal name
  | none => false

/-- A `dns_aclenv_t`; an ACL in it is what `dns_acl_match` answers for it. -/
structure AclEnv where
  localhost : Option (AclRequest → ℤ)
  localnets : Option (AclRequest → ℤ)
  matchMapped : Bool

/-- An ACL of the environment, if it is set, matches the request. -/
def envMatch (inner : Option (AclRequest → ℤ)) (req : AclRequest) : Bool :=
  match inner with
  | none => false
  | some f => decide (0 < f req)

def isV4Mapped (bytes : Vector (BitVec 8) 16) : Bool :=
  bytes.toList.take 12 == List.replicate 10 0 ++ [0xff, 0xff]

/-- The address that is looked up in the radix tree. -/
def effectiveAddr (env : Option AclEnv) (addr : NetAddr) : NetAddr :=
  match env, addr with
  | some env, .inet6 b =>
    if env.matchMapped && isV4Mapped b then .inet #v[b[12], b[13], b[14], b[15]] else addr
  | _, _ => addr

def hostPrefix (addr : NetAddr) : Prefix := toPrefix (some addr) (if addr.family = .inet6 then 128 else 32)

/-- The first part of `dns_acl_match`: the ordinal of the radix match, or -1, and the match. -/
def radixMatch (env : Option AclEnv) (req : AclRequest) (radix : RadixTree) : Option (ℤ × ℤ) :=
  let addr := effectiveAddr env req.addr
  match search radix (hostPrefix addr) with
  | none => some (-1, 0)
  | some a =>
    match a.data addr.family.is6 with
    | none => none
    | some pos => some (a.num addr.family.is6, if pos then a.num addr.family.is6 else -a.num addr.family.is6)

mutual

def aclMatch (env : Option AclEnv) (req : AclRequest) : Acl → Option ℤ
  | .mk radix elements =>
    match radixMatch env req radix with
    | none => none
    | some (matchNum, m) => elementsMatch env req matchNum m elements

/-- The loop of `dns_acl_match` over the elements. -/
def elementsMatch (env : Option AclEnv) (req : AclRequest) (matchNum m : ℤ) : List AclElement → Option ℤ
  | [] => some m
  | .mk kind negative nodeNum :: rest =>
    if matchNum ≠ -1 ∧ matchNum < nodeNum then some m
    else match kindMatch env req kind with
      | none => none
      | some true =>
        if matchNum = -1 ∨ nodeNum < matchNum then some (if negative then -nodeNum else nodeNum)
        else some m
      | some false => elementsMatch env req matchNum m rest

/-- `dns_aclelement_match`. -/
def kindMatch (env : Option AclEnv) (req : AclRequest) : AclElementKind → Option Bool
  | .keyname name => some (req.signedBy name)
  | .nestedacl acl => (aclMatch env req acl).map (fun m => decide (0 < m))
  | .localhost => some (envMatch (env.bind AclEnv.localhost) req)
  | .localnets => some (envMatch (env.bind AclEnv.localnets) req)

end

/-- A new element at the end: its ordinal is `++node_count`. -/
def Acl.append (a : Acl) (kind : AclElementKind) (negative : Bool) : Acl :=
  .mk { a.radix with numAdded := a.nodeCount + 1 } (a.elements ++ [.mk kind negative (a.nodeCount + 1)])

/-- The copy of an element that `dns_acl_merge` makes. -/
def mergeElement (base : ℤ) (pos : Bool) (e : AclElement) : AclElement :=
  .mk e.kind (!pos || e.negative) (e.nodeNum + base)

/-- The highest ordinal in a list of elements. -/
def maxElement (es : List AclElement) : ℤ := es.foldl (fun m e => max m e.nodeNum) 0

/-- `dns_acl_merge`; `memElements` tells whether there is memory for the element array and the copied
key names.  After a failure the destination is not used any more. -/
def aclMerge (memElements : Bool) (sur : ℕ → Surroundings) (dest source : Acl) (pos : Bool) :
    Option (Result × Option Acl) :=
  if !memElements then some (.nomemory, none)
  else
    let elements := dest.elements ++ source.elements.map (mergeElement dest.nodeCount pos)
    let nodes := maxElement source.elements + dest.nodeCount
    match iptableMerge sur dest.radix source.radix pos with
    | some (.success, radix) =>
      some (.success, some (.mk { radix with numAdded := max nodes radix.numAdded } elements))
    | some (r, _) => some (r, none)
    | none => none

end Bind9
