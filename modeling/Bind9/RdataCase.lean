import Bind9.RdataSign
import Bind9.RdataIter

/-! # Comparing rdata without the case of names

`dns_rdata_casecompare`, which update prerequisites and deletions use.  Most types compare as
`dns_rdata_compare` does or walk over their names with `dns_name_rdatacompare`; `lowered` says what such a comparison
sees of an rdata.  `casecompare_nxt` still has the names in the regions when it compares the rest, `casecompare_hip`
compares the servers as bytes before it walks over their names, so that both are zero on equal bytes only. -/

namespace Bind9.Rdata

open List

/-! ### The types -/

/-- The types of the development and SIG. -/
inductive CaseType where
  | sig
  | base (type : RdataType)
deriving DecidableEq, Repr

def CaseType.code : CaseType → ℕ
  | sig => 24
  | base type => type.code

def fromwireSig (env : WireEnv) (st : WireState) : Exec WireState := do
  let st ← fixedFromwire env 18 st
  let st ← env.name DNS_COMPRESS_NONE st
  restFromwire env st

def CaseType.fromwireSwitch (env : WireEnv) (st : WireState) : CaseType → Exec WireState
  | sig => fromwireSig env st
  | base type => Rdata.fromwireSwitch env st type

def CaseType.rdataFromwire (env : WireEnv) (type : CaseType) (st : WireState) :
    Exec (Bytes × WireState) := do
  require (decide ((env.activeregion st).length < 65536))
  let st' ← type.fromwireSwitch env st
  let rdata := st'.target.data.drop st.target.used
  if DNS_RDATA_MAXLENGTH < rdata.length then stop .formerr
  else if st'.current ≠ env.source.length then stop .extradata
  else pure (rdata, st')

/-- The rdata that `dns_rdata_fromwire` accepts from some message. -/
def CaseType.Accepted (regexValidate : Bytes → ℤ) (type : CaseType) (r : Bytes) : Prop :=
  ∃ env st st', env.regexValidate = regexValidate ∧ type.rdataFromwire env st = .ok (r, st')

/-! ### Comparing -/

/-- What `casecompare_nsec`, `casecompare_ipseckey`, `compare_sig` and `casecompare_rrsig` end with: a name, then the
rest of the regions. -/
def compareNameRest (r1 r2 : Bytes) : Exec Ordering :=
  compareNames r1 r2 (fun name1 name2 => do
    let r1 ← consume r1 name1.length
    let r2 ← consume r2 name2.length
    pure (regionCompare r1 r2))

def casecompareNsec (r1 r2 : Bytes) : Exec Ordering := do
  requireNonempty r1 r2
  compareNameRest r1 r2

def casecompareRrsig (r1 r2 : Bytes) : Exec Ordering := do
  requireNonempty r1 r2
  require (decide (18 < r1.length) && decide (18 < r2.length))
  compareFixed 18 r1 r2 compareNameRest

def compareSig (r1 r2 : Bytes) : Exec Ordering := do
  requireNonempty r1 r2
  require (decide (18 < r1.length) && decide (18 < r2.length))
  compareFixed 18 r1 r2 compareNameRest

def casecompareIpseckey (r1 r2 : Bytes) : Exec Ordering := do
  require (decide (3 ≤ r1.length) && decide (3 ≤ r2.length))
  let order ← memcmp r1 r2 3
  let gatewayType ← byteAt r1 1
  if order ≠ .eq ∨ gatewayType ≠ 3 then pure (regionCompare r1 r2)
  else do
    let r1 ← consume r1 3
    let r2 ← consume r2 3
    compareNameRest r1 r2

/-- The loop of `casecompare_hip`; each round takes at least one byte, so that as many rounds as there are bytes are
enough. -/
def casecompareHipLoop : ℕ → Bytes → Bytes → Exec Ordering
  | 0, r1, r2 => if r1.length ≠ 0 ∧ r2.length ≠ 0 then .error .overrun else pure (regionCompare r1 r2)
  | fuel + 1, r1, r2 =>
    if r1.length ≠ 0 ∧ r2.length ≠ 0 then
      compareNames r1 r2 (fun name1 name2 => do
        let r1 ← consume r1 name1.length
        let r2 ← consume r2 name2.length
        casecompareHipLoop fuel r1 r2)
    else pure (regionCompare r1 r2)

/-- `casecompare_hip`: the regions hold the names when they are compared. -/
def casecompareHip (r1 r2 : Bytes) : Exec Ordering := do
  requireNonempty r1 r2
  require (decide (4 < r1.length) && decide (4 < r2.length))
  thenOrder (memcmp r1 r2 4) (do
    let hitLen ← uint8Fromregion r1
    let lengths ← consume r1 2
    let keyLen ← uint16Fromregion lengths
    let r1 ← consume r1 4
    let r2 ← consume r2 4
    require (decide (hitLen + keyLen ≤ r1.length) && decide (hitLen + keyLen ≤ r2.length))
    thenOrder (pure (regionCompare r1 r2)) (do
      let r1 ← consume r1 (hitLen + keyLen)
      let r2 ← consume r2 (hitLen + keyLen)
      casecompareHipLoop r1.length r1 r2))

/-- `CASECOMPARESWITCH`: the `casecompare` functions of the other types call `compare`. -/
def casecompareSwitch (r1 r2 : Bytes) : CaseType → Exec Ordering
  | .sig => compareSig r1 r2
  | .base .nsec => casecompareNsec r1 r2
  | .base .rrsig => casecompareRrsig r1 r2
  | .base .ipseckey => casecompareIpseckey r1 r2
  | .base .hip => casecompareHip r1 r2
  | .base type => compareSwitch r1 r2 type

structure CaseRdata where
  rdclass : ℕ
  type : CaseType
  data : Bytes
deriving DecidableEq, Repr

def CaseRdata.casecompare (a b : CaseRdata) : Exec Ordering :=
  if a.rdclass ≠ b.rdclass then .ok (if a.rdclass < b.rdclass then .lt else .gt)
  else if a.type.code ≠ b.type.code then .ok (if a.type.code < b.type.code then .lt else .gt)
  else casecompareSwitch a.data b.data a.type

/-! ### Lower case names -/

/-- A name in lower case, and what follows it. -/
def lowerName (r : Bytes) (next : Bytes → Exec Bytes) : Exec Bytes := do
  let name ← nameFromregion r
  let r ← consume r name.length
  let rest ← next r
  pure (name.lower.ndata ++ rest)

/-- `n` bytes as they are, and what follows them. -/
def keepBytes (n : ℕ) (r : Bytes) (next : Bytes → Exec Bytes) : Exec Bytes := do
  let bytes ← bytesAt r n
  let r ← consume r n
  let rest ← next r
  pure (bytes ++ rest)

/-- A character string as it is, and what follows it. -/
def keepCounted (r : Bytes) (next : Bytes → Exec Bytes) : Exec Bytes := do
  let c ← byteAt r 0
  keepBytes (c.toNat + 1) r next

/-- Names up to the end, at most as many as there are bytes. -/
def lowerNames : ℕ → Bytes → Exec Bytes
  | 0, r => pure r
  | fuel + 1, r => if r = [] then pure r else lowerName r (lowerNames fuel)

/-- The rdata with every name in it in lower case and all other bytes as they are. -/
def lowered (r : Bytes) : CaseType → Exec Bytes
  | .sig => keepBytes 18 r (fun r => lowerName r pure)
  | .base .soa => lowerName r (fun r => lowerName r pure)
  | .base .px => keepBytes 2 r (fun r => lowerName r (fun r => lowerName r pure))
  | .base .nxt => lowerName r pure
  | .base .srv => keepBytes 6 r (fun r => lowerName r pure)
  | .base .naptr =>
    keepBytes 4 r (fun r => keepCounted r (fun r => keepCounted r (fun r => keepCounted r (fun r => lowerName r pure))))
  | .base .a6 => do
    let prefixlen ← byteAt r 0
    keepBytes (1 + (16 - prefixlen.toNat / 8)) r (fun r => if prefixlen.toNat = 0 then pure r else lowerName r pure)
  | .base .ipseckey => do
    let gatewayType ← byteAt r 1
    if gatewayType = 3 then keepBytes 3 r (fun r => lowerName r pure) else pure r
  | .base .rrsig => keepBytes 18 r (fun r => lowerName r pure)
  | .base .nsec => lowerName r pure
  | .base .hip => do
    let hitLen ← byteAt r 0
    let lengths ← consume r 2
    let keyLen ← uint16Fromregion lengths
    keepBytes (4 + (hitLen.toNat + keyLen)) r (fun r => lowerNames r.length r)
  | .base .wks | .base .txt | .base .loc | .base .apl | .base .nsec3 | .base .uri | .base (.unknown _) => pure r

variable {s r1 r2 : Bytes}

section Lowered

variable {r u : Bytes} {next : Bytes → Exec Bytes}

theorem lowerName_append (n : AbsName) (h : next r = .ok u) :
    lowerName (n.name.ndata ++ r) next = .ok (n.name.lower.ndata ++ u) := by
  rw [lowerName, nameFromregion_append, ok_then, consume_name, ok_then, h]
  rfl

theorem lowerName_end (n : AbsName) : lowerName n.name.ndata pure = .ok n.name.lower.ndata := by
  have h := @lowerName_append [] [] pure n rfl
  rwa [append_nil, append_nil] at h

theorem keepBytes_append {f : Bytes} {n : ℕ} (hf : n = f.length) (h : next r = .ok u) :
    keepBytes n (f ++ r) next = .ok (f ++ u) := by
  rw [keepBytes, bytesAt_append hf, ok_then, consume_append hf, ok_then, h]
  rfl

theorem keepCounted_append {c : UInt8} (hs : s.length = c.toNat) (h : next r = .ok u) :
    keepCounted (c :: (s ++ r)) next = .ok (c :: (s ++ u)) := by
  rw [keepCounted, byteAt_zero, ok_then]
  exact keepBytes_append (f := c :: s) (by simp [hs]) h

theorem lowerNames_servers (ns : List AbsName) : ∀ fuel, (servers ns).length ≤ fuel →
    lowerNames fuel (servers ns) = .ok (ns.flatMap (fun n => n.name.lower.ndata)) := by
  induction ns with
  | nil =>
    intro fuel _
    cases fuel with
    | zero => rfl
    | succ fuel => rfl
  | cons n ns ih =>
    intro fuel hfuel
    have hne : 0 < n.name.ndata.length := length_pos_iff.2 (ndata_ne_nil n)
    have hs : servers (n :: ns) = n.name.ndata ++ servers ns := rfl
    rw [hs, length_append] at hfuel
    cases fuel with
    | zero => omega
    | succ fuel =>
      rw [lowerNames, hs, if_neg (by simp [ndata_ne_nil])]
      exact lowerName_append n (ih fuel (by omega))

end Lowered

/-! ### The order behind the comparison -/

/-- What two rdata are compared by: NXT by the name without case and then by all bytes, HIP by its bytes, the other
types by the bytes with the names in lower case. -/
def caseKey (r : Bytes) : CaseType → Exec (Bytes × Bytes)
  | .base .nxt => do
    let name ← nameFromregion r
    pure (name.lower.ndata, r)
  | .base .hip => pure (r, [])
  | type => do
    let bytes ← lowered r type
    pure (bytes, [])

/-- The order of the keys. -/
def keyCompare : Bytes × Bytes → Bytes × Bytes → Ordering :=
  compareLex (compareOn Prod.fst) (compareOn Prod.snd)

theorem keyCompare_swap (k l : Bytes × Bytes) : keyCompare l k = (keyCompare k l).swap := by
  unfold keyCompare
  exact Std.OrientedCmp.eq_swap

theorem keyCompare_trans {k l m : Bytes × Bytes} (h1 : keyCompare k l ≠ .gt) (h2 : keyCompare l m ≠ .gt) :
    keyCompare k m ≠ .gt := by
  unfold keyCompare at *
  exact Ordering.isLE_iff_ne_gt.1
    (Std.TransCmp.isLE_trans (Ordering.isLE_iff_ne_gt.2 h1) (Ordering.isLE_iff_ne_gt.2 h2))

theorem keyCompare_eq_iff {k l : Bytes × Bytes} : keyCompare k l = .eq ↔ k = l := by
  rw [keyCompare, compareLex, Ordering.then_eq_eq, compareOn, compareOn, Std.LawfulEqCmp.compare_eq_iff_eq,
    Std.LawfulEqCmp.compare_eq_iff_eq, Prod.ext_iff]

/-- The comparison of two rdata is that of their keys. -/
def CaseKeyed (type : CaseType) (r1 r2 : Bytes) : Prop :=
  ∃ k1 k2, caseKey r1 type = .ok k1 ∧ caseKey r2 type = .ok k2 ∧
    casecompareSwitch r1 r2 type = .ok (keyCompare k1 k2)

theorem keyCompare_bytes (u v : Bytes) : keyCompare (u, []) (v, []) = compare u v := by
  rw [keyCompare, compareLex, compareOn, compareOn, Std.ReflOrd.compare_self, Ordering.then_eq]

variable {type : CaseType}

theorem caseKeyed_of_lowered {u v : Bytes} (hn : type ≠ .base .nxt) (hh : type ≠ .base .hip)
    (h1 : lowered r1 type = .ok u) (h2 : lowered r2 type = .ok v)
    (hc : casecompareSwitch r1 r2 type = .ok (compare u v)) : CaseKeyed type r1 r2 := by
  have hkey : ∀ r, caseKey r type = (do let bytes ← lowered r type; pure (bytes, [])) := by
    intro r
    unfold caseKey
    split
    · exact absurd rfl hn
    · exact absurd rfl hh
    · rfl
  refine ⟨(u, []), (v, []), ?_, ?_, ?_⟩
  · rw [hkey, h1]
    rfl
  · rw [hkey, h2]
    rfl
  · rw [hc, keyCompare_bytes]

theorem caseKeyed_of_agree {type : RdataType} {u v : Bytes} (ha : Agree type r1 r2)
    (hn : type ≠ .nxt) (hh : type ≠ .hip) (hs : casecompareSwitch r1 r2 (.base type) = compareSwitch r1 r2 type)
    (h1 : lowered r1 (.base type) = .ok u) (h2 : lowered r2 (.base type) = .ok v)
    (hu : digestSwitch r1 type = .ok u) (hv : digestSwitch r2 type = .ok v) : CaseKeyed (.base type) r1 r2 := by
  obtain ⟨d1, d2, hd1, hd2, -, -, hc⟩ := ha
  obtain rfl := Except.ok.inj (hu.symm.trans hd1)
  obtain rfl := Except.ok.inj (hv.symm.trans hd2)
  exact caseKeyed_of_lowered (by simpa using hn) (by simpa using hh) h1 h2 (hs.trans hc)

/-! ### The types -/

theorem lowered_soa (origin contact : AbsName) (tail : Bytes) :
    lowered (origin.name.ndata ++ (contact.name.ndata ++ tail)) (.base .soa) =
      .ok (origin.name.lower.ndata ++ (contact.name.lower.ndata ++ tail)) := by
  apply lowerName_append
  apply lowerName_append
  rfl

theorem lowered_srv (fixed : Bytes) (target : AbsName) (h : fixed.length = 6) :
    lowered (fixed ++ target.name.ndata) (.base .srv) = .ok (fixed ++ target.name.lower.ndata) := by
  apply keepBytes_append h.symm
  exact lowerName_end target

theorem lowered_px (fixed : Bytes) (map822 mapx400 : AbsName) (h : fixed.length = 2) :
    lowered (fixed ++ (map822.name.ndata ++ mapx400.name.ndata)) (.base .px) =
      .ok (fixed ++ (map822.name.lower.ndata ++ mapx400.name.lower.ndata)) := by
  apply keepBytes_append h.symm
  apply lowerName_append
  exact lowerName_end mapx400

theorem lowered_naptr {fixed : Bytes} {fl sl rl : UInt8} {flags service regexp : Bytes}
    (h : fixed.length = 4) (hf : flags.length = fl.toNat) (hs : service.length = sl.toNat)
    (hr : regexp.length = rl.toNat) (replacement : AbsName) :
    lowered (fixed ++ fl :: (flags ++ sl :: (service ++ rl :: (regexp ++ replacement.name.ndata)))) (.base .naptr) =
      .ok (fixed ++ fl :: (flags ++ sl :: (service ++ rl :: (regexp ++ replacement.name.lower.ndata)))) := by
  apply keepBytes_append h.symm
  apply keepCounted_append hf
  apply keepCounted_append hs
  apply keepCounted_append hr
  exact lowerName_end replacement

theorem lowered_a6 {p : UInt8} {suffix : Bytes} {pfx : Option AbsName} (hlen : suffix.length = 16 - p.toNat / 8)
    (hp : pfx.isSome ↔ p.toNat ≠ 0) :
    lowered (p :: (suffix ++ prefixName pfx)) (.base .a6) = .ok (p :: (suffix ++ prefixDigest pfx)) := by
  simp only [lowered, byteAt_zero, ok_then]
  rw [← cons_append, ← cons_append]
  apply keepBytes_append (by simp [hlen]; omega)
  cases pfx with
  | none =>
    have h0 : p.toNat = 0 := by simpa using hp
    rw [if_pos h0]
    rfl
  | some n =>
    have h0 : p.toNat ≠ 0 := by simpa using hp
    rw [if_neg h0]
    exact lowerName_end n

theorem compareNameRest_append (a b : AbsName) (x y : Bytes) : compareNameRest (a.name.ndata ++ x) (b.name.ndata ++ y) =
      .ok (compare (a.name.lower.ndata ++ x) (b.name.lower.ndata ++ y)) := by
  apply compareNames_append
  rw [consume_name, ok_then, consume_name, ok_then, regionCompare_eq]
  rfl

theorem nsec_caseKeyed (a b : AbsName) (x y : Bytes) :
    CaseKeyed (.base .nsec) (a.name.ndata ++ x) (b.name.ndata ++ y) := by
  refine caseKeyed_of_lowered (by simp) (by simp) (lowerName_append a rfl) (lowerName_append b rfl) ?_
  rw [casecompareSwitch, casecompareNsec, requireNonempty_ok (by simp [ndata_ne_nil]) (by simp [ndata_ne_nil]), ok_then]
  exact compareNameRest_append a b x y

section Signer

variable {f1 f2 : Bytes} (h1 : f1.length = 18) (h2 : f2.length = 18) (a b : AbsName) (x y : Bytes)

include h1 h2 in
theorem casecompareRrsig_append : casecompareRrsig (f1 ++ (a.name.ndata ++ x)) (f2 ++ (b.name.ndata ++ y)) =
    .ok (compare (f1 ++ (a.name.lower.ndata ++ x)) (f2 ++ (b.name.lower.ndata ++ y))) := by
  have ha := length_pos_iff.2 (ndata_ne_nil a)
  have hb := length_pos_iff.2 (ndata_ne_nil b)
  rw [casecompareRrsig, requireNonempty_ok (by simp [ndata_ne_nil]) (by simp [ndata_ne_nil]), ok_then,
    require_true (by simp only [length_append, Bool.and_eq_true, decide_eq_true_eq]; omega), ok_then]
  apply compareFixed_append h1 h2
  exact compareNameRest_append a b x y

include h1 h2 in
theorem rrsig_caseKeyed : CaseKeyed (.base .rrsig) (f1 ++ (a.name.ndata ++ x)) (f2 ++ (b.name.ndata ++ y)) :=
  caseKeyed_of_lowered (by simp) (by simp) (keepBytes_append h1.symm (lowerName_append a rfl))
    (keepBytes_append h2.symm (lowerName_append b rfl)) (casecompareRrsig_append h1 h2 a b x y)

include h1 h2 in
theorem sig_caseKeyed : CaseKeyed .sig (f1 ++ (a.name.ndata ++ x)) (f2 ++ (b.name.ndata ++ y)) :=
  caseKeyed_of_lowered (by simp) (by simp) (keepBytes_append h1.symm (lowerName_append a rfl))
    (keepBytes_append h2.symm (lowerName_append b rfl)) (casecompareRrsig_append h1 h2 a b x y)

end Signer

theorem lowered_ipseckey (p g a : UInt8) {gateway : Bytes} (key : Bytes) (h : Gateway g gateway) :
    ∃ gateway', lowered (p :: g :: a :: (gateway ++ key)) (.base .ipseckey) =
        .ok (p :: g :: a :: (gateway' ++ key)) ∧ (g ≠ 3 → gateway' = gateway) ∧
      (g = 3 → ∃ n : AbsName, gateway = n.name.ndata ∧ gateway' = n.name.lower.ndata) := by
  cases h with
  | none => exact ⟨[], rfl, fun _ => rfl, by simp⟩
  | ipv4 | ipv6 => exact ⟨gateway, rfl, fun _ => rfl, by simp⟩
  | name n =>
    refine ⟨n.name.lower.ndata, ?_, by simp, fun _ => ⟨n, rfl, rfl⟩⟩
    have hkeep := @keepBytes_append (n.name.ndata ++ key) (n.name.lower.ndata ++ key) (fun r => lowerName r pure)
      [p, 3, a] 3 rfl (lowerName_append n rfl)
    exact hkeep

theorem ipseckey_caseKeyed {p1 g1 a1 p2 g2 a2 : UInt8} {gw1 gw2 k1 k2 : Bytes} (h1 : Gateway g1 gw1)
    (h2 : Gateway g2 gw2) : CaseKeyed (.base .ipseckey) (p1 :: g1 :: a1 :: (gw1 ++ k1)) (p2 :: g2 :: a2 :: (gw2 ++ k2)) := by
  obtain ⟨l1, hl1, hother1, hname1⟩ := lowered_ipseckey p1 g1 a1 k1 h1
  obtain ⟨l2, hl2, hother2, hname2⟩ := lowered_ipseckey p2 g2 a2 k2 h2
  apply caseKeyed_of_lowered (by simp) (by simp) hl1 hl2
  have hhead : memcmp (p1 :: g1 :: a1 :: (gw1 ++ k1)) (p2 :: g2 :: a2 :: (gw2 ++ k2)) 3 =
      .ok (compare [p1, g1, a1] [p2, g2, a2]) := @memcmp_append [p1, g1, a1] [p2, g2, a2] _ _ 3 rfl rfl
  have hsplit : ∀ x y : Bytes, compare (p1 :: g1 :: a1 :: x) (p2 :: g2 :: a2 :: y) =
      (compare [p1, g1, a1] [p2, g2, a2]).then (compare x y) := fun x y =>
    LexOrder.compare_append (show [p1, g1, a1].length = [p2, g2, a2].length from rfl)
  rw [casecompareSwitch, casecompareIpseckey, require_true (by simp), ok_then, hhead, ok_then, byteAt_succ, byteAt_zero,
    ok_then]
  by_cases hc : compare [p1, g1, a1] [p2, g2, a2] ≠ .eq ∨ g1 ≠ 3
  · rw [if_pos hc, regionCompare_eq, hsplit (gw1 ++ k1) (gw2 ++ k2), hsplit (l1 ++ k1) (l2 ++ k2)]
    by_cases heq : compare [p1, g1, a1] [p2, g2, a2] = .eq
    · -- one head, and the gateways are no names
      have hg1 : g1 ≠ 3 := hc.resolve_left (not_not.2 heq)
      have hlist := Std.LawfulEqOrd.eq_of_compare heq
      have hg2 : g2 ≠ 3 := by simp_all
      rw [hother1 hg1, hother2 hg2]
      rfl
    cases ho : compare [p1, g1, a1] [p2, g2, a2] with
    | eq => exact absurd ho heq
    | lt => rfl
    | gt => rfl
  obtain ⟨heq, hg1⟩ := not_or.1 hc
  have hlist := Std.LawfulEqOrd.eq_of_compare (not_not.1 heq)
  have hg2 : g2 = 3 := by simp_all
  obtain ⟨n1, rfl, rfl⟩ := hname1 (not_not.1 hg1)
  obtain ⟨n2, rfl, rfl⟩ := hname2 hg2
  rw [if_neg hc, hsplit (n1.name.lower.ndata ++ k1) (n2.name.lower.ndata ++ k2), not_not.1 heq, Ordering.eq_then]
  have hconsume : ∀ (p g a : UInt8) (x : Bytes), consume (p :: g :: a :: x) 3 = .ok x := fun p g a x =>
    @consume_append [p, g, a] x 3 rfl
  rw [hconsume, ok_then, hconsume, ok_then]
  exact compareNameRest_append n1 n2 k1 k2

theorem nxt_caseKeyed (a b : AbsName) (x y : Bytes) :
    CaseKeyed (.base .nxt) (a.name.ndata ++ x) (b.name.ndata ++ y) := by
  have hkey : ∀ (n : AbsName) (z : Bytes), caseKey (n.name.ndata ++ z) (.base .nxt) =
      .ok (n.name.lower.ndata, n.name.ndata ++ z) := by
    intro n z
    rw [caseKey, nameFromregion_append, ok_then]
    rfl
  obtain ⟨o, ho, hcmp⟩ := a.rdatacompare_digest b
  have hnames : o = compare a.name.lower.ndata b.name.lower.ndata := by
    have h := hcmp [] []
    rwa [append_nil, append_nil, Std.ReflOrd.compare_self, Ordering.then_eq, eq_comm] at h
  have hswitch : casecompareSwitch (a.name.ndata ++ x) (b.name.ndata ++ y) (.base .nxt) =
      compareNxt (a.name.ndata ++ x) (b.name.ndata ++ y) := rfl
  refine ⟨_, _, hkey a x, hkey b y, ?_⟩
  rw [hswitch, compareNxt, requireNonempty_ok (by simp [ndata_ne_nil]) (by simp [ndata_ne_nil]), ok_then, compareNames,
    nameFromregion_append, ok_then, nameFromregion_append, ok_then, ho, regionCompare_eq, hnames]
  exact thenOrder_ok rfl

theorem casecompareHipLoop_self (ns : List AbsName) : ∀ fuel, (servers ns).length ≤ fuel →
    casecompareHipLoop fuel (servers ns) (servers ns) = .ok .eq := by
  induction ns with
  | nil =>
    intro fuel _
    cases fuel with
    | zero => rfl
    | succ fuel => rfl
  | cons n ns ih =>
    intro fuel hfuel
    have hne : 0 < n.name.ndata.length := length_pos_iff.2 (ndata_ne_nil n)
    have hs : servers (n :: ns) = n.name.ndata ++ servers ns := rfl
    rw [hs, length_append] at hfuel
    cases fuel with
    | zero => omega
    | succ fuel =>
      have hrest : casecompareHipLoop fuel (servers ns) (servers ns) = .ok (compare ([] : Bytes) []) := by
        rw [ih fuel (by omega), Std.ReflOrd.compare_self]
      rw [casecompareHipLoop, hs, if_pos (by simp [ndata_ne_nil])]
      have hname := @compareNames_append (servers ns) (servers ns) [] [] n n (fun name1 name2 => do
        let r1 ← consume (n.name.ndata ++ servers ns) name1.length
        let r2 ← consume (n.name.ndata ++ servers ns) name2.length
        casecompareHipLoop fuel r1 r2) (by rw [consume_name, ok_then, ok_then, hrest])
      rw [hname, Std.ReflOrd.compare_self]

theorem casecompareHip_eq {hl1 a1 k1 k1' hl2 a2 k2 k2' : UInt8} {hit1 key1 hit2 key2 : Bytes} {ns1 ns2 : List AbsName}
    (hh1 : hit1.length = hl1.toNat) (hk1 : key1.length = k1.toNat * 256 + k1'.toNat) (hh01 : hl1.toNat ≠ 0)
    (hh2 : hit2.length = hl2.toNat) (hk2 : key2.length = k2.toNat * 256 + k2'.toNat) (hh02 : hl2.toNat ≠ 0) :
    casecompareHip (hl1 :: a1 :: k1 :: k1' :: (hit1 ++ (key1 ++ servers ns1)))
        (hl2 :: a2 :: k2 :: k2' :: (hit2 ++ (key2 ++ servers ns2))) =
      .ok (compare (hl1 :: a1 :: k1 :: k1' :: (hit1 ++ (key1 ++ servers ns1)))
        (hl2 :: a2 :: k2 :: k2' :: (hit2 ++ (key2 ++ servers ns2)))) := by
  have hhead : memcmp (hl1 :: a1 :: k1 :: k1' :: (hit1 ++ (key1 ++ servers ns1)))
      (hl2 :: a2 :: k2 :: k2' :: (hit2 ++ (key2 ++ servers ns2))) 4 =
      .ok (compare [hl1, a1, k1, k1'] [hl2, a2, k2, k2']) :=
    @memcmp_append [hl1, a1, k1, k1'] [hl2, a2, k2, k2'] _ _ 4 rfl rfl
  have hsplit : compare (hl1 :: a1 :: k1 :: k1' :: (hit1 ++ (key1 ++ servers ns1)))
      (hl2 :: a2 :: k2 :: k2' :: (hit2 ++ (key2 ++ servers ns2))) =
      (compare [hl1, a1, k1, k1'] [hl2, a2, k2, k2']).then
        (compare (hit1 ++ (key1 ++ servers ns1)) (hit2 ++ (key2 ++ servers ns2))) :=
    LexOrder.compare_append (show [hl1, a1, k1, k1'].length = [hl2, a2, k2, k2'].length from rfl)
  rw [casecompareHip, requireNonempty_ok (by simp) (by simp), ok_then,
    require_true (by simp only [length_cons, length_append, Bool.and_eq_true, decide_eq_true_eq]; omega), ok_then,
    hhead, hsplit]
  cases hc : compare [hl1, a1, k1, k1'] [hl2, a2, k2, k2'] with
  | lt => rfl
  | gt => rfl
  | eq =>
    have hlist := Std.LawfulEqOrd.eq_of_compare hc
    simp only [cons.injEq, and_true] at hlist
    obtain ⟨rfl, rfl, rfl, rfl⟩ := hlist
    apply thenOrder_ok
    simp only [uint8Fromregion, uint16Fromregion, consume_two, consume_four, ok_then]
    rw [require_true (by simp only [length_append, Bool.and_eq_true, decide_eq_true_eq]; omega), ok_then,
      regionCompare_eq]
    cases ho : compare (hit1 ++ (key1 ++ servers ns1)) (hit2 ++ (key2 ++ servers ns2)) with
    | lt => rfl
    | gt => rfl
    | eq =>
      have hservers : consume (hit1 ++ (key1 ++ servers ns1)) (hl1.toNat + (k1.toNat * 256 + k1'.toNat)) =
          .ok (servers ns1) := by
        rw [← append_assoc]
        exact consume_append (by simp [hh1, hk1])
      rw [← Std.LawfulEqOrd.eq_of_compare ho, hservers, ok_then, ok_then, casecompareHipLoop_self ns1 _ le_rfl]
      rfl

theorem lowered_hip {hl a k k' : UInt8} {hit key : Bytes} {ns : List AbsName} (hh : hit.length = hl.toNat)
    (hk : key.length = k.toNat * 256 + k'.toNat) : lowered (hl :: a :: k :: k' :: (hit ++ (key ++ servers ns))) (.base .hip) =
      .ok (hl :: a :: k :: k' :: (hit ++ (key ++ ns.flatMap (fun n => n.name.lower.ndata)))) := by
  have hkeep := @keepBytes_append (servers ns) (ns.flatMap (fun n => n.name.lower.ndata))
    (fun r => lowerNames r.length r) (hl :: a :: k :: k' :: (hit ++ key)) (4 + (hl.toNat + (k.toNat * 256 + k'.toNat)))
    (by simp [hh, hk]; omega) (lowerNames_servers ns _ le_rfl)
  simp only [cons_append, append_assoc] at hkeep
  simp only [lowered, byteAt_zero, consume_two, uint16Fromregion, ok_then]
  exact hkeep

theorem hip_caseKeyed {hl1 a1 k1 k1' hl2 a2 k2 k2' : UInt8} {hit1 key1 hit2 key2 : Bytes} {ns1 ns2 : List AbsName}
    (hh1 : hit1.length = hl1.toNat) (hk1 : key1.length = k1.toNat * 256 + k1'.toNat) (hh01 : hl1.toNat ≠ 0)
    (hh2 : hit2.length = hl2.toNat) (hk2 : key2.length = k2.toNat * 256 + k2'.toNat) (hh02 : hl2.toNat ≠ 0) :
    CaseKeyed (.base .hip) (hl1 :: a1 :: k1 :: k1' :: (hit1 ++ (key1 ++ servers ns1)))
      (hl2 :: a2 :: k2 :: k2' :: (hit2 ++ (key2 ++ servers ns2))) :=
  ⟨_, _, rfl, rfl, by rw [keyCompare_bytes]; exact casecompareHip_eq hh1 hk1 hh01 hh2 hk2 hh02⟩

/-- The types that have no names in them, or whose names are left as they are. -/
theorem region_caseKeyed {type : RdataType} (ha : Agree type r1 r2) (hn : type ≠ .nxt)
    (hh : type ≠ .hip) (hl : ∀ r, lowered r (.base type) = .ok r) (hd : ∀ r, digestSwitch r type = .ok r)
    (hs : casecompareSwitch r1 r2 (.base type) = compareSwitch r1 r2 type) : CaseKeyed (.base type) r1 r2 :=
  caseKeyed_of_agree ha hn hh hs (hl r1) (hl r2) (hd r1) (hd r2)

variable {validate : Bytes → ℤ}

/-- **The comparison is an order of keys**, for accepted rdata of every type. -/
theorem caseKeyed_of_layout {type : RdataType}
    (h1 : Layout validate type r1) (h2 : Layout validate type r2) : CaseKeyed (.base type) r1 r2 := by
  have hagree := @agree_of_layout validate type r1 r2 h1 h2
  cases h1 with
  | wks | txt | loc | apl | nsec3 | uri | unknown =>
    exact region_caseKeyed (hagree (by simp) (by simp)) (by simp) (by simp) (fun _ => rfl) (fun _ => rfl) rfl
  | soa a1 b1 t1 =>
    cases h2 with
    | soa a2 b2 t2 =>
      exact caseKeyed_of_agree (hagree (by simp) (by simp)) (by simp) (by simp) rfl (lowered_soa a1 b1 t1)
        (lowered_soa a2 b2 t2) (digestSoa_eq a1 b1 t1) (digestSoa_eq a2 b2 t2)
  | px p1 q1 a1 b1 =>
    cases h2 with
    | px p2 q2 a2 b2 =>
      exact caseKeyed_of_agree (hagree (by simp) (by simp)) (by simp) (by simp) rfl (lowered_px [p1, q1] a1 b1 rfl)
        (lowered_px [p2, q2] a2 b2 rfl) (digestPx_eq [p1, q1] a1 b1 rfl) (digestPx_eq [p2, q2] a2 b2 rfl)
  | srv p1 q1 v1 w₁ x1 y1 a1 =>
    cases h2 with
    | srv p2 q2 v2 w₂ x2 y2 a2 =>
      exact caseKeyed_of_agree (hagree (by simp) (by simp)) (by simp) (by simp) rfl
        (lowered_srv [p1, q1, v1, w₁, x1, y1] a1 rfl) (lowered_srv [p2, q2, v2, w₂, x2, y2] a2 rfl)
        (digestSrv_eq [p1, q1, v1, w₁, x1, y1] a1 rfl) (digestSrv_eq [p2, q2, v2, w₂, x2, y2] a2 rfl)
  | naptr o1 o1' p1 p1' fl1 sl1 rl1 fs1 ss1 rs1 a1 hf1 hs1 hr1 =>
    cases h2 with
    | naptr o2 o2' p2 p2' fl2 sl2 rl2 fs2 ss2 rs2 a2 hf2 hs2 hr2 =>
      have e1 : [o1, o1', p1, p1'].length = 4 := rfl
      have e2 : [o2, o2', p2, p2'].length = 4 := rfl
      exact caseKeyed_of_agree (hagree (by simp) (by simp)) (by simp) (by simp) rfl
        (lowered_naptr e1 hf1 hs1 hr1 a1) (lowered_naptr e2 hf2 hs2 hr2 a2)
        (digestNaptr_eq e1 hf1 hs1 hr1 a1) (digestNaptr_eq e2 hf2 hs2 hr2 a2)
  | a6 p1 s1 x1 k1 hl1 hpad1 hp1 =>
    cases h2 with
    | a6 p2 s2 x2 k2 hl2 hpad2 hp2 =>
      exact caseKeyed_of_agree (hagree (by simp) (by simp)) (by simp) (by simp) rfl (lowered_a6 hl1 hp1)
        (lowered_a6 hl2 hp2) (digestA6_eq k1 hl1 hp1) (digestA6_eq k2 hl2 hp2)
  | nxt a x =>
    cases h2 with
    | nxt b y => exact nxt_caseKeyed a b x y
  | nsec a x =>
    cases h2 with
    | nsec b y => exact nsec_caseKeyed a b x y
  | rrsig f1 a x h1 =>
    cases h2 with
    | rrsig f2 b y h2 => exact rrsig_caseKeyed h1 h2 a b x y
  | ipseckey p1 g1 a1 gw1 k1 hg1 =>
    cases h2 with
    | ipseckey p2 g2 a2 gw2 k2 hg2 => exact ipseckey_caseKeyed hg1 hg2
  | hip hl1 a1 k1 k1' hit1 key1 ns1 hh1 hk1 hh01 =>
    cases h2 with
    | hip hl2 a2 k2 k2' hit2 key2 ns2 hh2 hk2 hh02 => exact hip_caseKeyed hh1 hk1 hh01 hh2 hk2 hh02

/-! ### Accepted rdata -/

/-- The type whose layout the accepted rdata have: a SIG looks like an RRSIG. -/
def CaseType.layoutType : CaseType → RdataType
  | sig => .rrsig
  | base type => type

theorem CaseType.rdataFromwire_eq (env : WireEnv) (type : CaseType) (st : WireState) :
    type.rdataFromwire env st = Rdata.rdataFromwire env type.layoutType st := by
  cases type with
  | sig => rfl
  | base type => rfl

theorem CaseType.layout_of_accepted {r : Bytes} (h : type.Accepted validate r) : Layout validate type.layoutType r := by
  obtain ⟨env, st, st', he, h⟩ := h
  rw [CaseType.rdataFromwire_eq] at h
  exact (Rdata.layout_of_accepted ⟨env, st, st', he, h⟩).1

theorem caseKeyed_of_accepted (h1 : type.Accepted validate r1) (h2 : type.Accepted validate r2) : CaseKeyed type r1 r2 := by
  have hl1 := CaseType.layout_of_accepted h1
  have hl2 := CaseType.layout_of_accepted h2
  cases type with
  | base type => exact caseKeyed_of_layout hl1 hl2
  | sig =>
    cases hl1 with
    | rrsig f1 a x hf1 =>
      cases hl2 with
      | rrsig f2 b y hf2 => exact sig_caseKeyed hf1 hf2 a b x y

theorem lowered_of_accepted {r : Bytes} (h : type.Accepted validate r) : ∃ l, lowered r type = .ok l ∧
      (type ≠ .base .nxt → type ≠ .base .hip → caseKey r type = .ok (l, [])) := by
  obtain ⟨k, -, hk, -, -⟩ := caseKeyed_of_accepted h h
  by_cases hn : type = .base .nxt
  · subst hn
    cases CaseType.layout_of_accepted h with
    | nxt a x => exact ⟨_, lowerName_append a rfl, fun hn => absurd rfl hn⟩
  by_cases hh : type = .base .hip
  · subst hh
    cases CaseType.layout_of_accepted h with
    | hip hl a k k' hit key ns hlen hkey => exact ⟨_, lowered_hip hlen hkey, fun _ hh => absurd rfl hh⟩
  unfold caseKey at hk
  split at hk
  · exact absurd rfl hn
  · exact absurd rfl hh
  · obtain ⟨l, hl, -⟩ := bind_eq_ok hk
    refine ⟨l, hl, fun _ _ => ?_⟩
    unfold caseKey
    split
    · exact absurd rfl hn
    · exact absurd rfl hh
    · rw [hl]
      rfl

/-! ### The order on all byte strings -/

/-- The key, and the bytes themselves for what no `fromwire` accepts. -/
def totalKey (type : CaseType) (r : Bytes) : Bytes × Bytes :=
  match caseKey r type with
  | .ok k => k
  | .error _ => ([], r)

/-- The comparison as an order of all byte strings. -/
def caseOrder (type : CaseType) (r s : Bytes) : Ordering := keyCompare (totalKey type r) (totalKey type s)

theorem caseOrder_trans (type : CaseType) : Std.TransCmp (caseOrder type) where
  eq_swap := keyCompare_swap _ _
  isLE_trans := by
    intro r s t h1 h2
    rw [Ordering.isLE_iff_ne_gt] at *
    exact keyCompare_trans h1 h2

theorem keepBytes_ok {n : ℕ} {r l : Bytes} {next : Bytes → Exec Bytes}
    (h : keepBytes n r next = .ok l) : n ≤ r.length ∧ ∃ rest, l = r.take n ++ rest := by
  obtain ⟨bytes, hb, h⟩ := bind_eq_ok h
  obtain ⟨r', -, h⟩ := bind_eq_ok h
  obtain ⟨rest, -, h⟩ := bind_eq_ok h
  unfold bytesAt at hb
  split at hb
  · next hn =>
      cases hb
      cases h
      exact ⟨hn, rest, rfl⟩
  · cases hb

theorem caseOrder_signature (ht : type = .sig ∨ type = .base .rrsig) {r : Bytes}
    (h : caseOrder type r s = .eq) (i : ℕ) (hi : i < 18) : r.getD i 0 = s.getD i 0 := by
  have hkey : ∀ t : Bytes, totalKey type t = ([], t) ∨ ∃ rest, 18 ≤ t.length ∧ totalKey type t = (t.take 18 ++ rest, []) := by
    intro t
    have hcase : caseKey t type = (do let bytes ← keepBytes 18 t (fun r => lowerName r pure); pure (bytes, [])) := by
      obtain rfl | rfl := ht <;> rfl
    rw [totalKey, hcase]
    cases hl : keepBytes 18 t (fun r => lowerName r pure) with
    | error e => exact .inl rfl
    | ok l =>
      obtain ⟨hlen, rest, rfl⟩ := keepBytes_ok hl
      exact .inr ⟨rest, hlen, rfl⟩
  have heq := keyCompare_eq_iff.1 h
  have hne : ∀ (t rest : Bytes), 18 ≤ t.length → t.take 18 ++ rest ≠ [] := by
    intro t rest hlen hnil
    have := congrArg List.length (append_eq_nil_iff.1 hnil).1
    simp only [length_take, length_nil] at this
    omega
  obtain hr | ⟨x, hr, hrk⟩ := hkey r
  · obtain hs | ⟨y, hs, hsk⟩ := hkey s
    · rw [hr, hs] at heq
      rw [(Prod.mk.inj heq).2]
    · rw [hr, hsk] at heq
      exact absurd (Prod.mk.inj heq).1.symm (hne s y hs)
  obtain hs | ⟨y, hs, hsk⟩ := hkey s
  · rw [hrk, hs] at heq
    exact absurd (Prod.mk.inj heq).1 (hne r x hr)
  rw [hrk, hsk] at heq
  have htake := (append_inj (Prod.mk.inj heq).1 (by simp only [length_take]; omega)).1
  have hget : ∀ t : Bytes, (t.take 18).getD i 0 = t.getD i 0 := by
    intro t
    simp only [getD_eq_getElem?_getD]
    rw [getElem?_take_of_lt hi]
  rw [← hget r, ← hget s, htake]

/-- When `dns_rdata_casecompare` tells rdata apart by everything but the case of names: for NXT and HIP, two rdata that
differ in the case of names only must not differ at all. -/
def CaseOk (type : CaseType) (r1 r2 : Bytes) : Prop :=
  type = .base .nxt ∨ type = .base .hip → lowered r1 type = lowered r2 type → r1 = r2

theorem casecompare_same (rdclass : ℕ) (type : CaseType) (r1 r2 : Bytes) :
    CaseRdata.casecompare ⟨rdclass, type, r1⟩ ⟨rdclass, type, r2⟩ = casecompareSwitch r1 r2 type := by
  simp [CaseRdata.casecompare]

/-- The keys of NXT and HIP rdata are as good as their bytes. -/
theorem caseKey_inj {k1 k2 : Bytes × Bytes}
    (ht : type = .base .nxt ∨ type = .base .hip) (h1 : caseKey r1 type = .ok k1) (h2 : caseKey r2 type = .ok k2) :
    k1 = k2 ↔ r1 = r2 := by
  constructor
  · intro he
    obtain rfl | rfl := ht
    · obtain ⟨n1, -, hk1⟩ := bind_eq_ok h1
      obtain ⟨n2, -, hk2⟩ := bind_eq_ok h2
      cases hk1
      cases hk2
      exact (Prod.mk.inj he).2
    cases h1
    cases h2
    exact (Prod.mk.inj he).1
  · rintro rfl
    exact Except.ok.inj (h1.symm.trans h2)

/-- **Comparing without case.**  `dns_rdata_casecompare` on accepted rdata of one type always returns, is antisymmetric
and transitive; it is zero exactly when the two rdata are the same with their names in lower case iff `CaseOk` holds. -/
theorem casecompare_lowered (validate : Bytes → ℤ) (rdclass : ℕ) (type : CaseType) (r1 r2 r3 : Bytes)
    (h1 : type.Accepted validate r1) (h2 : type.Accepted validate r2) (h3 : type.Accepted validate r3) :
    (∃ o, CaseRdata.casecompare ⟨rdclass, type, r1⟩ ⟨rdclass, type, r2⟩ = .ok o ∧
      CaseRdata.casecompare ⟨rdclass, type, r2⟩ ⟨rdclass, type, r1⟩ = .ok o.swap) ∧
    (CaseRdata.casecompare ⟨rdclass, type, r1⟩ ⟨rdclass, type, r2⟩ ≠ .ok .gt →
      CaseRdata.casecompare ⟨rdclass, type, r2⟩ ⟨rdclass, type, r3⟩ ≠ .ok .gt →
      CaseRdata.casecompare ⟨rdclass, type, r1⟩ ⟨rdclass, type, r3⟩ ≠ .ok .gt) ∧
    ∃ l1 l2, lowered r1 type = .ok l1 ∧ lowered r2 type = .ok l2 ∧
      ((CaseRdata.casecompare ⟨rdclass, type, r1⟩ ⟨rdclass, type, r2⟩ = .ok .eq ↔ l1 = l2) ↔ CaseOk type r1 r2) := by
  obtain ⟨k1, k2, hk1, hk2, hc12⟩ := caseKeyed_of_accepted h1 h2
  obtain ⟨k2', k3, hk2', hk3, hc23⟩ := caseKeyed_of_accepted h2 h3
  obtain ⟨k1', k3', hk1', hk3', hc13⟩ := caseKeyed_of_accepted h1 h3
  obtain ⟨m2, m1, hm2, hm1, hc21⟩ := caseKeyed_of_accepted h2 h1
  obtain rfl := Except.ok.inj (hk2'.symm.trans hk2)
  obtain rfl := Except.ok.inj (hm2.symm.trans hk2)
  obtain rfl := Except.ok.inj (hk1'.symm.trans hk1)
  obtain rfl := Except.ok.inj (hm1.symm.trans hk1)
  obtain rfl := Except.ok.inj (hk3'.symm.trans hk3)
  simp only [casecompare_same, hc12, hc23, hc13, hc21, Except.ok.injEq, ne_eq]
  refine ⟨⟨_, rfl, keyCompare_swap _ _⟩, keyCompare_trans, ?_⟩
  obtain ⟨l1, hl1, hkey1⟩ := lowered_of_accepted h1
  obtain ⟨l2, hl2, hkey2⟩ := lowered_of_accepted h2
  refine ⟨l1, l2, hl1, hl2, ?_⟩
  rw [keyCompare_eq_iff, CaseOk, hl1, hl2, Except.ok.injEq]
  by_cases ht : type = .base .nxt ∨ type = .base .hip
  · rw [caseKey_inj ht hk1 hk2]
    constructor
    · exact fun h _ => h.2
    · refine fun h => ⟨fun he => ?_, h ht⟩
      subst he
      exact Except.ok.inj (hl1.symm.trans hl2)
  -- the key is the rdata in lower case
  obtain ⟨hn, hh⟩ := not_or.1 ht
  obtain rfl := Except.ok.inj (hk1.symm.trans (hkey1 hn hh))
  obtain rfl := Except.ok.inj (hk2.symm.trans (hkey2 hn hh))
  simp [ht]

/-- NXT and HIP rdata that differ in the case of one letter of a name: `dns_rdata_casecompare` tells them apart. -/
theorem casecompare_case_matters : ((CaseType.base .nxt).Accepted (fun _ => 0) [1, 97, 0, 0x40] ∧
      (CaseType.base .nxt).Accepted (fun _ => 0) [1, 65, 0, 0x40] ∧
      ¬(CaseRdata.casecompare ⟨1, .base .nxt, [1, 97, 0, 0x40]⟩ ⟨1, .base .nxt, [1, 65, 0, 0x40]⟩ = .ok .eq ↔
        lowered [1, 97, 0, 0x40] (.base .nxt) = lowered [1, 65, 0, 0x40] (.base .nxt))) ∧
    ((CaseType.base .hip).Accepted (fun _ => 0) [1, 2, 0, 1, 7, 8, 1, 97, 0] ∧
      (CaseType.base .hip).Accepted (fun _ => 0) [1, 2, 0, 1, 7, 8, 1, 65, 0] ∧
      ¬(CaseRdata.casecompare ⟨1, .base .hip, [1, 2, 0, 1, 7, 8, 1, 97, 0]⟩
          ⟨1, .base .hip, [1, 2, 0, 1, 7, 8, 1, 65, 0]⟩ = .ok .eq ↔
        lowered [1, 2, 0, 1, 7, 8, 1, 97, 0] (.base .hip) = lowered [1, 2, 0, 1, 7, 8, 1, 65, 0] (.base .hip))) :=
  ⟨⟨accepted_nxt _ 97 0x40 (by decide), accepted_nxt _ 65 0x40 (by decide), by decide⟩,
    accepted_hip _ 97, accepted_hip _ 65, by decide⟩

/-- Two HIP records with the servers `a.` and `A.`, and one with `b.`. -/
theorem casecompare_lowered_hip : ∃ l1 l2, lowered [1, 2, 0, 1, 7, 8, 1, 97, 0] (.base .hip) = .ok l1 ∧
    lowered [1, 2, 0, 1, 7, 8, 1, 65, 0] (.base .hip) = .ok l2 ∧
    ((CaseRdata.casecompare ⟨1, .base .hip, [1, 2, 0, 1, 7, 8, 1, 97, 0]⟩
        ⟨1, .base .hip, [1, 2, 0, 1, 7, 8, 1, 65, 0]⟩ = .ok .eq ↔ l1 = l2) ↔
      CaseOk (.base .hip) [1, 2, 0, 1, 7, 8, 1, 97, 0] [1, 2, 0, 1, 7, 8, 1, 65, 0]) :=
  (casecompare_lowered (fun _ => 0) 1 (.base .hip) _ _ [1, 2, 0, 1, 7, 8, 1, 98, 0] (accepted_hip _ 97)
    (accepted_hip _ 65) (accepted_hip _ 98)).2.2

end Bind9.Rdata
