import Bind9.Journal
import Bind9.Ssu
import Bind9.ZoneDb

/-! # Dynamic update

The update section of a request, as `update_action` of `bin/named/update.c` handles it: first every record of the section
is checked (the prescan), then every record is carried out on a new version of the zone.  Each change is a tuple that
`dns_diff_apply` applies by itself and `dns_diff_appendminimal` puts into the diff of the request.

While the code walks over the records of a name it changes the version.  The iterators go on with the rdatasets as they
were when they came to them, so the records are listed first and changed then. -/

namespace Bind9.Update

open Diff ZoneDb Journal Rbtdb

/-- `dns_rdatatype_ismeta`, with the attributes that `gen.c` writes. -/
def ismeta (type : UInt16) : Bool := type == 41 || decide (128 ≤ type ∧ type ≤ 255)

def isdnssec (type : UInt16) : Bool :=
  type == 43 || type == 46 || type == 47 || type == 48 || type == 50 || type == 51 || type == 65533

def cname : UInt16 := 5
def wks : UInt16 := 11
def dname : UInt16 := 39
def nsec : UInt16 := 47
def nsec3param : UInt16 := 51

/-- `dns_rdataclass_none` and `dns_rdataclass_any`. -/
def classNone : UInt16 := 254

def classAny : UInt16 := 255

/-- What the code takes from the zone and from the generated code. -/
structure UpdateEnv extends zonedb : ZoneDb.Env where
  origin : Name
  privatetype : UInt16
  /-- `dns_rdata_casecompare`. -/
  casecompare : UInt16 → Rdata → Rdata → Ordering
  /-- `dns_zone_checknames`. -/
  checknames : Name → UInt16 → Rdata → Bool

/-- The policy of the zone and who asks. -/
structure Policy where
  oracle : Ssu.Oracle
  rules : List Ssu.Rule
  who : Ssu.Requestor

/-- `dns_ssutable_checkrules` for the request. -/
def Policy.grants (p : Policy) (name : Name) (type : UInt16) : Bool := Ssu.checkrules p.oracle p.rules p.who name type

/-- What `get_current_rr` returns. -/
structure UpdateRr where
  name : Name
  updateClass : UInt16
  ttl : ℕ
  type : UInt16
  covers : UInt16
  rdata : Rdata

/-- `rr_t`. -/
structure Found where
  type : UInt16
  ttl : ℕ
  rdata : Rdata

/-- The version under construction, `diff` and `soa_serial_changed`. -/
structure Pending where
  ver : Zone
  diff : Tuples
  soaSerialChanged : Bool

/-! ### The records of a name -/

/-- The rdatasets that `foreach_rrset` visits. -/
def nodeRrsets (z : Zone) (name : Name) : List (Key × Rdataset) :=
  z.filter (fun e => decide (e.1.name = name.lower) && !e.1.isNsec3)

/-- The records of an rdataset. -/
def rrsetRrs (e : Key × Rdataset) : List Found := e.2.rdata.1.map (fun r => ⟨e.1.type.base, e.2.ttl, r⟩)

def rrsetKey (name : Name) (type covers : UInt16) : Key := ⟨name.lower, type, covers⟩

def foreachRr (z : Zone) (name : Name) (type covers : UInt16) : List Found :=
  if type = any then (nodeRrsets z name).flatMap rrsetRrs
  else (z.find (rrsetKey name type covers)).elim [] (fun s => rrsetRrs (rrsetKey name type covers, s))

def rrsetExists (z : Zone) (name : Name) (type covers : UInt16) : Bool := !(foreachRr z name type covers).isEmpty

def cnameIncompatibleRrsetExists (z : Zone) (name : Name) : Bool :=
  (nodeRrsets z name).any (fun e => e.1.type.base != cname && !isdnssec e.1.type.base)

def rrCount (z : Zone) (name : Name) (type covers : UInt16) : ℕ := (foreachRr z name type covers).length

/-! ### Changing the version -/

variable (env : UpdateEnv)

def doOneTuple (s : Pending) (t : DiffTuple) : Exec Pending := do
  let ver ← diffApply env.zonedb s.ver [t]
  pure { s with ver := ver, diff := (appendminimal env.ops s.diff t).1 }

def doDiff (s : Pending) (updates : Tuples) : Exec Pending := updates.foldlM (doOneTuple env) s

def rrTuple (op : DiffOp) (name : Name) (ttl : ℕ) (type : UInt16) (rdata : Rdata) : DiffTuple :=
  ⟨op, name, ttl, env.rdclass, type, rdata⟩

/-- `delete_if` with the records that `foreach_rr` visits. -/
def deleteIf (predicate : Found → Bool) (s : Pending) (name : Name) (type covers : UInt16) : Exec Pending :=
  doDiff env s (((foreachRr s.ver name type covers).filter predicate).map (fun f =>
    rrTuple env .del name f.ttl f.type f.rdata))

def typeNotSoaNorNs (f : Found) : Bool :=
  f.type != soa && f.type != ns && f.type != nsec3param && f.type != rrsig && f.type != nsec

def typeNotDnssec (f : Found) : Bool := f.type != rrsig && f.type != nsec

variable (u : UpdateRr)

def rrEqual (f : Found) : Bool := u.type == f.type && env.casecompare f.type u.rdata f.rdata == .eq

/-! ### Additions -/

/-- The covered type, the algorithm and the key tag of an RRSIG. -/
def rrsigIds (r : Rdata) : UInt8 × UInt8 × UInt8 × UInt8 × UInt8 :=
  (r.getD 0 0, r.getD 1 0, r.getD 2 0, r.getD 16 0, r.getD 17 0)

/-- `replaces_p`; an RRSIG that `dns_rdata_tostruct` refuses is an assertion failure. -/
def replaces (f : Found) : Exec Bool :=
  if f.type ≠ u.type then .ok false
  else if f.type = cname ∨ f.type = dname ∨ f.type = soa ∨ f.type = nsec then .ok true
  else if f.type = rrsig then do
    require (decide (18 ≤ f.rdata.length ∧ 18 ≤ u.rdata.length))
    pure (rrsigIds f.rdata == rrsigIds u.rdata)
  else if f.type = wks then do
    require (decide (5 ≤ f.rdata.length ∧ 5 ≤ u.rdata.length))
    pure (f.rdata.take 5 == u.rdata.take 5)
  else if f.type = nsec3param then
    if f.rdata.length ≠ u.rdata.length then .ok false
    else do
      require (decide (4 ≤ f.rdata.length ∧ 4 ≤ u.rdata.length))
      pure (f.rdata.head? == u.rdata.head? && f.rdata.drop 2 == u.rdata.drop 2)
  else .ok false

/-- `ignore_add`, `del_diff` and `add_diff`. -/
structure Prepared where
  ignoreAdd : Bool
  delDiff : Tuples
  addDiff : Tuples

def addRrPrepareAction (p : Prepared) (f : Found) : Exec Prepared := do
  let equal := f.type == u.type && env.casecompare f.type f.rdata u.rdata == .eq
  if equal ∧ f.ttl = u.ttl then pure { p with ignoreAdd := true }
  else do
    let replaced ← replaces u f
    let del := rrTuple env .del u.name f.ttl f.type f.rdata
    if replaced then pure { p with delDiff := p.delDiff ++ [del] }
    else if f.ttl ≠ u.ttl then
      pure { p with
        delDiff := p.delDiff ++ [del]
        addDiff := if equal then p.addDiff else p.addDiff ++ [rrTuple env .add u.name u.ttl f.type f.rdata] }
    else pure p

variable (s : Pending)

/-- The addition itself. -/
def addRr (u : UpdateRr) : Exec Pending := do
  let p ← (foreachRr s.ver u.name u.type u.covers).foldlM (addRrPrepareAction env u) ⟨false, [], []⟩
  if p.ignoreAdd then pure s
  else do
    let s ← doDiff env s p.delDiff
    let s ← doDiff env s p.addDiff
    doOneTuple env s (rrTuple env .add u.name u.ttl u.type u.rdata)

def getsoaserial (z : Zone) : Exec UInt32 :=
  match z.find (rrsetKey env.origin soa 0) with
  | none => stop .notfound
  | some s => soaGetserial (s.rdata.1.headD [])

def checkSoaIncrement (z : Zone) (rdata : Rdata) : Exec Bool := do
  let updateSerial ← soaGetserial rdata
  let dbSerial ← getsoaserial env z
  pure (!Serial.ge dbSerial updateSerial)

/-- The additions that are ignored before the version is looked at. -/
def ignoredAlways : Bool :=
  u.type == 3 || u.type == 4 || ((u.type == ns || u.type == dname) && u.name.iswildcard)

/-- The additions that are ignored because of a CNAME. -/
def ignoredCname (z : Zone) (u : UpdateRr) : Bool :=
  if u.type = cname then cnameIncompatibleRrsetExists z u.name
  else rrsetExists z u.name cname 0 && !isdnssec u.type

/-- The additions that are ignored for their type, once SOA records have been dealt with. -/
def ignoredLate : Bool :=
  u.type == env.privatetype || (u.type == nsec3param && u.rdata.getD 1 0 &&& 254 != 0)

/-- The record of an update section with the class of the zone. -/
def updateAdd (u : UpdateRr) : Exec Pending := do
  if ignoredAlways u || ignoredCname s.ver u then pure s
  else if u.type = soa then do
    if rrsetExists s.ver u.name soa 0 = false then pure s
    else do
      let ok ← checkSoaIncrement env s.ver u.rdata
      if ok = false then pure s
      else if ignoredLate env u then pure { s with soaSerialChanged := true }
      else addRr env { s with soaSerialChanged := true } u
  else if ignoredLate env u then pure s
  else addRr env s u

/-! ### Deletions -/

/-- The record of an update section with the class ANY. -/
def updateDelete (u : UpdateRr) : Exec Pending :=
  if u.type = any then
    if u.name.equal env.origin then deleteIf env typeNotSoaNorNs s u.name any 0
    else deleteIf env typeNotDnssec s u.name any 0
  else if u.name.equal env.origin ∧ (u.type = soa ∨ u.type = ns) then .ok s
  else deleteIf env (fun _ => true) s u.name u.type u.covers

/-- The record of an update section with the class NONE. -/
def updateDeleteRr (u : UpdateRr) : Exec Pending :=
  if u.name.equal env.origin ∧ (u.type = soa ∨ u.type = ns ∧ rrCount s.ver u.name ns 0 = 1) then .ok s
  else deleteIf env (rrEqual env u) s u.name u.type u.covers

/-- One record of the update section. -/
def updateRr (u : UpdateRr) : Exec Pending :=
  if u.updateClass = env.rdclass then updateAdd env s u
  else if u.updateClass = classAny then updateDelete env s u
  else if u.updateClass = classNone then updateDeleteRr env s u
  else .ok s

/-! ### The prescan -/

/-- The checks of class, type, TTL and rdata. -/
def prescanForm : Exec Unit :=
  if u.updateClass = env.rdclass then
    if ismeta u.type then stop .formerr
    else if env.checknames u.name u.type u.rdata then .ok ()
    else stop .refused
  else if u.updateClass = classAny then
    if u.ttl ≠ 0 ∨ u.rdata.length ≠ 0 ∨ (ismeta u.type ∧ u.type ≠ any) then stop .formerr else .ok ()
  else if u.updateClass = classNone then
    if u.ttl ≠ 0 ∨ ismeta u.type then stop .formerr else .ok ()
  else stop .formerr

/-- The types that the client must leave alone. -/
def prescanType : Exec Unit :=
  if u.type = nsec3 ∨ u.type = nsec ∨ (u.type = rrsig ∧ u.name.equal env.origin = false) then stop .refused else .ok ()

def ssuCheckrule (p : Policy) (name : Name) (e : Key × Rdataset) : Bool :=
  e.1.type.base == rrsig || e.1.type.base == nsec || p.grants name e.1.type.base

def ssuCheckall (p : Policy) (ver : Zone) (name : Name) : Bool := (nodeRrsets ver name).all (ssuCheckrule p name)

def prescanPolicy (p : Policy) (ver : Zone) (u : UpdateRr) : Exec Unit :=
  if (if u.type ≠ any then p.grants u.name u.type else ssuCheckall p ver u.name) then .ok () else stop .refused

/-- The prescan of one record; `policy` is `none` for a zone without `update-policy`. -/
def prescanRr (policy : Option Policy) (ver : Zone) (u : UpdateRr) : Exec Unit := do
  if u.name.issubdomain env.origin = false then stop .notzone
  else do
    prescanForm env u
    prescanType env u
    policy.elim (.ok ()) (fun p => prescanPolicy p ver u)

/-- The update section, with the version `ver` that was just opened. -/
def updateSection (policy : Option Policy) (ver : Zone) (us : List UpdateRr) : Exec Pending := do
  us.forM (prescanRr env policy ver)
  us.foldlM (updateRr env) ⟨ver, [], false⟩

end Bind9.Update
