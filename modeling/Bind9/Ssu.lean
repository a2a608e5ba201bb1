import Bind9.NameOrder
import Bind9.Radix
import Bind9.Tsig

/-! # Simple secure update

The policy table of `lib/dns/ssu.c`: an update is granted to a signer, or to the address of a TCP client, for a name and
a type.  The first rule that matches decides.

Kerberos principals, the external helper and the DLZ driver are asked about some rules; their answers are the parameter
`Oracle`. -/

namespace Bind9

def Name.iswildcard (n : Name) : Bool := n.labels.head? == some [42]

def Name.matcheswildcard (n wname : Name) : Bool :=
  decide ((n.fullcompare (wname.getlabelsequence 1 (wname.countlabels - 1))).1 = .subdomain)

namespace Ssu

inductive MatchType where
  | name
  | subdomain
  | wildcard
  | self
  | selfsub
  | selfwild
  | selfkrb5
  | selfms
  | subdomainms
  | subdomainkrb5
  | tcpself
  | sixToFourSelf
  | external
  | dlz
deriving DecidableEq, Repr

/-- `dns_ssurule_t`; `dns_ssutable_addrule` requires the name of a wildcard rule to be one. -/
structure Rule where
  grant : Bool
  matchtype : MatchType
  identity : Name
  name : Name
  types : List UInt16
  wild : matchtype = .wildcard → name.iswildcard = true

/-- Who asks: the signer of the request, the address of a TCP client, and the key. -/
structure Requestor where
  signer : Option Name
  tcpaddr : Option Radix.NetAddr
  key : Option DstKey

/-- What is asked of others. -/
structure Oracle where
  /-- `dst_gssapi_identitymatchesrealmkrb5`. -/
  krb5 : Name → Option Name → Name → Bool
  /-- `dst_gssapi_identitymatchesrealmms`. -/
  ms : Name → Option Name → Name → Bool
  /-- `dns_ssu_external_match`. -/
  external : Name → Requestor → Name → UInt16 → Bool
  /-- `dns_dlz_ssumatch`. -/
  dlz : Requestor → Name → UInt16 → Bool

/-! ### Names of addresses -/

/-- A number as `printf` writes it. -/
def digits (base n : ℕ) : Label := (Nat.toDigits base n).map (fun c => UInt8.ofNat c.toNat)

def inAddrArpa : List Label := [[73, 78, 45, 65, 68, 68, 82], [65, 82, 80, 65], []]

def ip6Arpa : List Label := [[73, 80, 54], [65, 82, 80, 65], []]

/-- The two halves of a byte, the lower one first. -/
def nibbles (b : BitVec 8) : List ℕ := [b.toNat % 16, b.toNat / 16]

def reverseFromAddress : Radix.NetAddr → Name
  | .inet bytes => ⟨bytes.toList.reverse.map (fun b => digits 10 b.toNat) ++ inAddrArpa⟩
  | .inet6 bytes => ⟨bytes.toList.reverse.flatMap (fun b => (nibbles b).map (digits 16)) ++ ip6Arpa⟩

/-- `stf_from_address`; in the format for IPv4 there is no dot in front of `2.0.0.2`. -/
def stfFromAddress : Radix.NetAddr → Name
  | .inet bytes =>
    let ns := (bytes.toList.reverse.flatMap nibbles).map (digits 16)
    ⟨ns.dropLast ++ [ns.getLastD [] ++ digits 10 2, digits 10 0, digits 10 0, digits 10 2] ++ ip6Arpa⟩
  | .inet6 bytes => ⟨(bytes.toList.take 6).reverse.flatMap (fun b => (nibbles b).map (digits 16)) ++ ip6Arpa⟩

/-! ### Rules -/

/-- The identity of a rule, which may be a wildcard. -/
def identityMatches (identity n : Name) : Bool :=
  if identity.iswildcard then n.matcheswildcard identity else n.equal identity

/-- `dns_name_concatenate` of `*` and the signer; `none` when the name is too long. -/
def wildcardOf (signer : Name) : Option Name :=
  if 255 < (⟨[42] :: signer.labels⟩ : Name).length then none else some ⟨[42] :: signer.labels⟩

/-- The first `switch` of the loop of `dns_ssutable_checkrules`. -/
def whoMatches (rule : Rule) (who : Requestor) : Bool :=
  match rule.matchtype with
  | .name | .subdomain | .wildcard | .self | .selfsub | .selfwild => who.signer.any (identityMatches rule.identity)
  | .selfkrb5 | .selfms | .subdomainkrb5 | .subdomainms => who.signer.isSome
  | .tcpself | .sixToFourSelf => who.tcpaddr.isSome
  | .external | .dlz => true

/-- An address that stands for its own name. -/
def addressMatches (rule : Rule) (name self : Name) : Bool := identityMatches rule.identity self && self.equal name

/-- The second `switch`. -/
def nameMatches (oracle : Oracle) (rule : Rule) (who : Requestor) (name : Name) (type : UInt16) : Bool :=
  match rule.matchtype with
  | .name => name.equal rule.name
  | .subdomain => name.issubdomain rule.name
  | .wildcard => name.matcheswildcard rule.name
  | .self => who.signer.any (fun signer => signer.equal name)
  | .selfsub => who.signer.any (fun signer => name.issubdomain signer)
  | .selfwild => who.signer.any (fun signer => (wildcardOf signer).any (name.matcheswildcard ·))
  | .selfkrb5 => who.signer.any (fun signer => oracle.krb5 signer (some name) rule.identity)
  | .selfms => who.signer.any (fun signer => oracle.ms signer (some name) rule.identity)
  | .subdomainkrb5 => name.issubdomain rule.name && who.signer.any (fun signer => oracle.krb5 signer none rule.identity)
  | .subdomainms => name.issubdomain rule.name && who.signer.any (fun signer => oracle.ms signer none rule.identity)
  | .tcpself => who.tcpaddr.any (fun addr => addressMatches rule name (reverseFromAddress addr))
  | .sixToFourSelf => who.tcpaddr.any (fun addr => addressMatches rule name (stfFromAddress addr))
  | .external => oracle.external rule.identity who name type
  | .dlz => oracle.dlz who name type

def isusertype (type : UInt16) : Bool := type != 2 && type != 6 && type != 46

def typeMatches (rule : Rule) (type : UInt16) : Bool :=
  if rule.types = [] then rule.matchtype == .dlz || isusertype type
  else rule.types.any (fun t => t == 255 || t == type)

def checkrules (oracle : Oracle) (rules : List Rule) (who : Requestor) (name : Name) (type : UInt16) : Bool :=
  if who.signer.isNone && who.tcpaddr.isNone then false
  else
    match rules.find? (fun rule => whoMatches rule who && nameMatches oracle rule who name type && typeMatches rule type) with
    | some rule => rule.grant
    | none => false

end Ssu

end Bind9
