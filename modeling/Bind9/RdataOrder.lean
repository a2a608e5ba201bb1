import Bind9.RdataLayout

/-! # The order of rdata and its digest

The `compare` and `digest` functions of the rdata types.  For every type but NXT the two agree: the order is the
order of the digested bytes (`agree_of_layout`).  `compare_nxt` does not step over the name before it compares the rest, so that two
names which differ in case only decide before the bitmaps do; `NxtAgree` says when this does not matter. -/

namespace Bind9.Rdata

open List

/-! ### Comparing -/

/-- A comparison that goes on when the first part is equal. -/
def thenOrder (first next : Exec Ordering) : Exec Ordering := do
  match ← first with
  | .eq => next
  | order => pure order

/-- Compare `n` bytes, step over them and go on. -/
def compareFixed (n : ℕ) (r1 r2 : Bytes) (next : Bytes → Bytes → Exec Ordering) :
    Exec Ordering :=
  thenOrder (memcmp r1 r2 n) (do
    let r1 ← consume r1 n
    let r2 ← consume r2 n
    next r1 r2)

variable (r1 r2 : Bytes)

/-- Compare two character strings, step over them and go on. -/
def compareCounted (next : Bytes → Bytes → Exec Ordering) :
    Exec Ordering := do
  let c1 ← byteAt r1 0
  let c2 ← byteAt r2 0
  thenOrder (memcmp r1 r2 (min c1.toNat c2.toNat + 1)) (do
    let r1 ← consume r1 (c1.toNat + 1)
    let r2 ← consume r2 (c2.toNat + 1)
    next r1 r2)

/-- Compare the names two regions start with and go on. -/
def compareNames (next : Name → Name → Exec Ordering) : Exec Ordering := do
  let name1 ← nameFromregion r1
  let name2 ← nameFromregion r2
  thenOrder (name1.rdatacompare name2) (next name1 name2)

/-- `REQUIRE(rdata1->length != 0)`, `REQUIRE(rdata2->length != 0)`. -/
def requireNonempty : Exec Unit :=
  require (decide (r1.length ≠ 0) && decide (r2.length ≠ 0))

def compareSoa : Exec Ordering := do
  requireNonempty r1 r2
  compareNames r1 r2 (fun name1 name2 => do
    let r1 ← consume r1 name1.length
    let r2 ← consume r2 name2.length
    compareNames r1 r2 (fun name1 name2 => do
      let r1 ← consume r1 name1.length
      let r2 ← consume r2 name2.length
      pure (regionCompare r1 r2)))

def compareSrv : Exec Ordering := do
  requireNonempty r1 r2
  compareFixed 6 r1 r2 (fun r1 r2 => compareNames r1 r2 (fun _ _ => pure .eq))

def comparePx : Exec Ordering := do
  requireNonempty r1 r2
  compareFixed 2 r1 r2 (fun r1 r2 =>
    compareNames r1 r2 (fun name1 name2 => do
      let r1 ← consume r1 name1.length
      let r2 ← consume r2 name2.length
      compareNames r1 r2 (fun _ _ => pure .eq)))

def compareNaptr : Exec Ordering := do
  requireNonempty r1 r2
  compareFixed 4 r1 r2 (fun r1 r2 =>
    compareCounted r1 r2 (fun r1 r2 =>
      compareCounted r1 r2 (fun r1 r2 =>
        compareCounted r1 r2 (fun r1 r2 => compareNames r1 r2 (fun _ _ => pure .eq)))))

def compareA6 : Exec Ordering := do
  requireNonempty r1 r2
  let prefixlen1 ← byteAt r1 0
  let prefixlen2 ← byteAt r2 0
  let r1 ← consume r1 1
  let r2 ← consume r2 1
  if prefixlen1 < prefixlen2 then pure .lt
  else if prefixlen2 < prefixlen1 then pure .gt
  else
    let octets := 16 - prefixlen1.toNat / 8
    if 0 < octets then
      thenOrder (memcmp r1 r2 octets)
        (if prefixlen1.toNat = 0 then pure .eq
        else do
          let r1 ← consume r1 octets
          let r2 ← consume r2 octets
          compareNames r1 r2 (fun _ _ => pure .eq))
    else compareNames r1 r2 (fun _ _ => pure .eq)

/-- `compare_nxt`: the regions still hold the names when they are compared. -/
def compareNxt : Exec Ordering := do
  requireNonempty r1 r2
  compareNames r1 r2 (fun _ _ => pure (regionCompare r1 r2))

def compareUri : Exec Ordering := do
  requireNonempty r1 r2
  compareFixed 2 r1 r2 (fun r1 r2 => compareFixed 2 r1 r2 (fun r1 r2 => pure (regionCompare r1 r2)))

/-- `compare_loc`, `compare_nsec`, `compare_nsec3`, `compare_hip`, `compare_rrsig` and `compare_in_wks`. -/
def compareNonempty : Exec Ordering := do
  requireNonempty r1 r2
  pure (regionCompare r1 r2)

def compareIpseckey : Exec Ordering := do
  require (decide (3 ≤ r1.length) && decide (3 ≤ r2.length))
  pure (regionCompare r1 r2)

/-- `COMPARESWITCH`; `compare_txt`, `compare_in_apl` and the default compare the regions. -/
def compareSwitch : RdataType → Exec Ordering
  | .soa => compareSoa r1 r2
  | .px => comparePx r1 r2
  | .nxt => compareNxt r1 r2
  | .srv => compareSrv r1 r2
  | .naptr => compareNaptr r1 r2
  | .a6 => compareA6 r1 r2
  | .ipseckey => compareIpseckey r1 r2
  | .uri => compareUri r1 r2
  | .wks | .loc | .rrsig | .nsec | .nsec3 | .hip => compareNonempty r1 r2
  | .txt | .apl | .unknown _ => .ok (regionCompare r1 r2)

/-! ### Digesting -/

variable (r : Bytes)

def digestSoa : Exec Bytes := do
  let name ← nameFromregion r
  let origin ← name.digest
  let r ← consume r name.length
  let name ← nameFromregion r
  let contact ← name.digest
  let r ← consume r name.length
  pure (origin ++ (contact ++ r))

def digestSrv : Exec Bytes := do
  let r2 ← consume r 6
  let r1 ← bytesAt r 6
  let name ← nameFromregion r2
  let target ← name.digest
  pure (r1 ++ target)

def digestPx : Exec Bytes := do
  let r2 ← consume r 2
  let r1 ← bytesAt r 2
  let name ← nameFromregion r2
  let map822 ← name.digest
  let r2 ← consume r2 name.length
  let name ← nameFromregion r2
  let mapx400 ← name.digest
  pure (r1 ++ (map822 ++ mapx400))

def digestNaptr : Exec Bytes := do
  let r2 ← consume r 4
  let flags ← byteAt r2 0
  let r2 ← consume r2 (flags.toNat + 1)
  let service ← byteAt r2 0
  let r2 ← consume r2 (service.toNat + 1)
  let regexp ← byteAt r2 0
  let r2 ← consume r2 (regexp.toNat + 1)
  let r1 ← bytesAt r (4 + (flags.toNat + 1) + (service.toNat + 1) + (regexp.toNat + 1))
  let name ← nameFromregion r2
  let replacement ← name.digest
  pure (r1 ++ replacement)

def digestA6 : Exec Bytes := do
  let prefixlen ← byteAt r 0
  let octets := 1 + 16 - prefixlen.toNat / 8
  let r1 ← bytesAt r octets
  if prefixlen.toNat = 0 then pure r1
  else do
    let r2 ← consume r octets
    let name ← nameFromregion r2
    let pfx ← name.digest
    pure (r1 ++ pfx)

def digestNxt : Exec Bytes := do
  let name ← nameFromregion r
  let next ← name.digest
  let r ← consume r name.length
  pure (next ++ r)

/-- `DIGESTSWITCH`; the other functions and the default digest the whole region. -/
def digestSwitch : RdataType → Exec Bytes
  | .soa => digestSoa r
  | .px => digestPx r
  | .nxt => digestNxt r
  | .srv => digestSrv r
  | .naptr => digestNaptr r
  | .a6 => digestA6 r
  | .rrsig => stop .notimplemented
  | .wks | .txt | .loc | .apl | .ipseckey | .nsec | .nsec3 | .hip | .uri | .unknown _ => .ok r

/-! ### Order and digest, piece by piece -/

theorem thenOrder_ok {o o' : Ordering} {next : Exec Ordering} (h : next = .ok o') :
    thenOrder (.ok o) next = .ok (o.then o') := by
  cases o with
  | eq => rw [thenOrder, ok_then, h]; rfl
  | lt => rfl
  | gt => rfl

theorem memcmp_append {a b x y : Bytes} {n : ℕ} (ha : a.length = n) (hb : b.length = n) :
    memcmp (a ++ x) (b ++ y) n = .ok (compare a b) := by
  rw [memcmp, bytesAt_append ha.symm, ok_then, bytesAt_append hb.symm, ok_then]
  rfl

section Pieces

variable {x y u v : Bytes}

theorem compareFixed_append {n : ℕ} {a b : Bytes} {next : Bytes → Bytes → Exec Ordering}
    (ha : a.length = n) (hb : b.length = n) (hn : next x y = .ok (compare u v)) :
    compareFixed n (a ++ x) (b ++ y) next = .ok (compare (a ++ u) (b ++ v)) := by
  rw [compareFixed, memcmp_append ha hb, LexOrder.compare_append (ha.trans hb.symm)]
  apply thenOrder_ok
  rw [consume_append ha.symm, ok_then, consume_append hb.symm, ok_then, hn]

theorem compareCounted_append {c d : UInt8} {s t : Bytes} {next : Bytes → Bytes → Exec Ordering}
    (hs : s.length = c.toNat) (ht : t.length = d.toNat) (hn : next x y = .ok (compare u v)) :
    compareCounted (c :: (s ++ x)) (d :: (t ++ y)) next = .ok (compare (c :: (s ++ u)) (d :: (t ++ v))) := by
  rw [compareCounted, byteAt_zero, ok_then, byteAt_zero, ok_then]
  have hrest : (do
      let r1 ← consume (c :: (s ++ x)) (c.toNat + 1)
      let r2 ← consume (d :: (t ++ y)) (d.toNat + 1)
      next r1 r2) = .ok (compare u v) := by
    rw [← cons_append, ← cons_append, consume_append (by simp [hs]), ok_then,
      consume_append (by simp [ht]), ok_then, hn]
  by_cases hcd : c = d
  · -- strings of one length: the bytes that are compared are the strings
    subst hcd
    have hlen : (c :: s).length = (c :: t).length := by simp [hs, ht]
    rw [← cons_append, ← cons_append, min_self, memcmp_append (by simp [hs]) (by simp [ht]),
      ← cons_append, ← cons_append, LexOrder.compare_append hlen]
    exact thenOrder_ok hrest
  -- the length bytes differ and decide
  have hne : compare c d ≠ .eq := fun he => hcd (Std.LawfulEqOrd.eq_of_compare he)
  obtain ⟨o, ho⟩ : ∃ o : Ordering,
      memcmp (c :: (s ++ x)) (d :: (t ++ y)) (min c.toNat d.toNat + 1) = .ok ((compare c d).then o) := by
    rw [memcmp, bytesAt, if_pos (by simp [hs]), ok_then, bytesAt, if_pos (by simp [ht]), ok_then,
      take_succ_cons, take_succ_cons]
    exact ⟨_, congrArg Except.ok List.compare_cons_cons⟩
  rw [ho, thenOrder_ok hrest, List.compare_cons_cons]
  cases hc : compare c d with
  | eq => exact absurd hc hne
  | lt => rfl
  | gt => rfl

theorem compareNames_append (a b : AbsName) (next : Name → Name → Exec Ordering)
    (hn : next a.name b.name = .ok (compare u v)) : compareNames (a.name.ndata ++ x) (b.name.ndata ++ y) next =
      .ok (compare (a.name.lower.ndata ++ u) (b.name.lower.ndata ++ v)) := by
  obtain ⟨o, ho, hcmp⟩ := a.rdatacompare_digest b
  rw [compareNames, nameFromregion_append, ok_then, nameFromregion_append, ok_then, ho, hcmp]
  exact thenOrder_ok hn

theorem compareNames_end (a b : AbsName) : compareNames a.name.ndata b.name.ndata (fun _ _ => pure .eq) =
    .ok (compare a.name.lower.ndata b.name.lower.ndata) := by
  have h := compareNames_append (x := []) (y := []) (u := []) (v := []) a b (fun _ _ => pure .eq) rfl
  simpa using h

theorem consume_name (n : AbsName) (x : Bytes) : consume (n.name.ndata ++ x) n.name.length = .ok x :=
  consume_append rfl

theorem digest_name (n : AbsName) : n.name.digest = .ok n.name.lower.ndata := by
  have := n.valid.length_le
  rw [Name.digest, if_neg (by omega)]

theorem nameFromregion_self (n : AbsName) : nameFromregion n.name.ndata = .ok n.name := by
  have h := nameFromregion_append n []
  rwa [append_nil] at h

end Pieces

variable {r1 r2 : Bytes}

theorem requireNonempty_ok (h1 : r1 ≠ []) (h2 : r2 ≠ []) : requireNonempty r1 r2 = .ok () :=
  require_true (by simp [h1, h2])

theorem ndata_ne_nil (n : AbsName) : n.name.ndata ≠ [] := by
  rw [Name.ndata, n.labels_eq]
  simp [Label.wire]

/-! ### The types -/

/-- The two functions agree on two rdata: the comparison is that of the digests, which are as long as the rdata. -/
def Agree (type : RdataType) (r1 r2 : Bytes) : Prop :=
  ∃ d1 d2, digestSwitch r1 type = .ok d1 ∧ digestSwitch r2 type = .ok d2 ∧ d1.length = r1.length ∧
    d2.length = r2.length ∧ compareSwitch r1 r2 type = .ok (compare d1 d2)

theorem ndata_length_lower (n : AbsName) : n.name.lower.ndata.length = n.name.ndata.length :=
  Name.length_lower n.name

theorem digestSoa_eq (origin contact : AbsName) (tail : Bytes) :
    digestSoa (origin.name.ndata ++ (contact.name.ndata ++ tail)) =
      .ok (origin.name.lower.ndata ++ (contact.name.lower.ndata ++ tail)) := by
  simp only [digestSoa, nameFromregion_append, digest_name, consume_name, ok_then]
  rfl

theorem soa_agree (a1 b1 a2 b2 : AbsName) (t1 t2 : Bytes) :
    Agree .soa (a1.name.ndata ++ (b1.name.ndata ++ t1)) (a2.name.ndata ++ (b2.name.ndata ++ t2)) := by
  refine ⟨_, _, digestSoa_eq a1 b1 t1, digestSoa_eq a2 b2 t2, ?_, ?_, ?_⟩
  · simp [ndata_length_lower]
  · simp [ndata_length_lower]
  · rw [compareSwitch, compareSoa, requireNonempty_ok (by simp [ndata_ne_nil]) (by simp [ndata_ne_nil]), ok_then]
    apply compareNames_append
    rw [consume_name, ok_then, consume_name, ok_then]
    apply compareNames_append
    rw [consume_name, ok_then, consume_name, ok_then, regionCompare_eq]
    rfl

theorem digestSrv_eq (fixed : Bytes) (target : AbsName) (h : fixed.length = 6) :
    digestSrv (fixed ++ target.name.ndata) = .ok (fixed ++ target.name.lower.ndata) := by
  simp only [digestSrv, consume_append h.symm, bytesAt_append h.symm, nameFromregion_self, digest_name, ok_then]
  rfl

theorem srv_agree (f1 f2 : Bytes) (a1 a2 : AbsName) (h1 : f1.length = 6) (h2 : f2.length = 6) :
    Agree .srv (f1 ++ a1.name.ndata) (f2 ++ a2.name.ndata) := by
  refine ⟨_, _, digestSrv_eq f1 a1 h1, digestSrv_eq f2 a2 h2, ?_, ?_, ?_⟩
  · simp [ndata_length_lower]
  · simp [ndata_length_lower]
  · rw [compareSwitch, compareSrv, requireNonempty_ok (by simp [ndata_ne_nil]) (by simp [ndata_ne_nil]), ok_then]
    exact compareFixed_append h1 h2 (compareNames_end a1 a2)

theorem digestPx_eq (fixed : Bytes) (map822 mapx400 : AbsName) (h : fixed.length = 2) :
    digestPx (fixed ++ (map822.name.ndata ++ mapx400.name.ndata)) =
      .ok (fixed ++ (map822.name.lower.ndata ++ mapx400.name.lower.ndata)) := by
  simp only [digestPx, consume_append h.symm, bytesAt_append h.symm, nameFromregion_append, nameFromregion_self,
    digest_name, consume_name, ok_then]
  rfl

theorem px_agree (f1 f2 : Bytes) (a1 b1 a2 b2 : AbsName) (h1 : f1.length = 2) (h2 : f2.length = 2) :
    Agree .px (f1 ++ (a1.name.ndata ++ b1.name.ndata)) (f2 ++ (a2.name.ndata ++ b2.name.ndata)) := by
  refine ⟨_, _, digestPx_eq f1 a1 b1 h1, digestPx_eq f2 a2 b2 h2, ?_, ?_, ?_⟩
  · simp [ndata_length_lower]
  · simp [ndata_length_lower]
  · rw [compareSwitch, comparePx, requireNonempty_ok (by simp [ndata_ne_nil]) (by simp [ndata_ne_nil]), ok_then]
    apply compareFixed_append h1 h2
    apply compareNames_append
    rw [consume_name, ok_then, consume_name, ok_then, compareNames_end]

/-- The part of a NAPTR record in front of the replacement. -/
def naptrHead (fixed : Bytes) (fl sl rl : UInt8) (flags service regexp : Bytes) : Bytes :=
  fixed ++ fl :: (flags ++ sl :: (service ++ rl :: regexp))

theorem digestNaptr_eq {fixed : Bytes} {fl sl rl : UInt8} {flags service regexp : Bytes}
    (h : fixed.length = 4) (hf : flags.length = fl.toNat) (hs : service.length = sl.toNat)
    (hr : regexp.length = rl.toNat) (replacement : AbsName) :
    digestNaptr (fixed ++ fl :: (flags ++ sl :: (service ++ rl :: (regexp ++ replacement.name.ndata)))) =
      .ok (fixed ++ fl :: (flags ++ sl :: (service ++ rl :: (regexp ++ replacement.name.lower.ndata)))) := by
  have hc : ∀ (c : UInt8) (t x : Bytes), t.length = c.toNat → consume (c :: (t ++ x)) (c.toNat + 1) = .ok x := by
    intro c t x ht
    rw [← cons_append]
    exact consume_append (by simp [ht])
  have hhead : bytesAt (fixed ++ fl :: (flags ++ sl :: (service ++ rl :: (regexp ++ replacement.name.ndata))))
      (4 + (fl.toNat + 1) + (sl.toNat + 1) + (rl.toNat + 1)) = .ok (naptrHead fixed fl sl rl flags service regexp) := by
    have e : fixed ++ fl :: (flags ++ sl :: (service ++ rl :: (regexp ++ replacement.name.ndata))) =
        naptrHead fixed fl sl rl flags service regexp ++ replacement.name.ndata := by
      simp [naptrHead]
    rw [e]
    exact bytesAt_append (by simp [naptrHead, h, hf, hs, hr]; omega)
  simp only [digestNaptr, consume_append h.symm, ok_then, byteAt_zero, hc fl flags _ hf, hc sl service _ hs,
    hc rl regexp _ hr, hhead, nameFromregion_self, digest_name]
  simp [naptrHead]
  rfl

theorem naptr_agree (f1 f2 : Bytes) {fl1 sl1 rl1 fl2 sl2 rl2 : UInt8} {fs1 ss1 rs1 fs2 ss2 rs2 : Bytes}
    (h1 : f1.length = 4) (hf1 : fs1.length = fl1.toNat) (hs1 : ss1.length = sl1.toNat)
    (hr1 : rs1.length = rl1.toNat) (h2 : f2.length = 4) (hf2 : fs2.length = fl2.toNat)
    (hs2 : ss2.length = sl2.toNat) (hr2 : rs2.length = rl2.toNat) (a1 a2 : AbsName) :
    Agree .naptr (f1 ++ fl1 :: (fs1 ++ sl1 :: (ss1 ++ rl1 :: (rs1 ++ a1.name.ndata))))
      (f2 ++ fl2 :: (fs2 ++ sl2 :: (ss2 ++ rl2 :: (rs2 ++ a2.name.ndata)))) := by
  refine ⟨_, _, digestNaptr_eq h1 hf1 hs1 hr1 a1, digestNaptr_eq h2 hf2 hs2 hr2 a2, ?_, ?_, ?_⟩
  · simp [ndata_length_lower]
  · simp [ndata_length_lower]
  · rw [compareSwitch, compareNaptr, requireNonempty_ok (by simp) (by simp), ok_then]
    apply compareFixed_append h1 h2
    apply compareCounted_append hf1 hf2
    apply compareCounted_append hs1 hs2
    apply compareCounted_append hr1 hr2
    exact compareNames_end a1 a2

def prefixDigest : Option AbsName → Bytes
  | some n => n.name.lower.ndata
  | none => []

theorem prefixDigest_length (pfx : Option AbsName) : (prefixDigest pfx).length = (prefixName pfx).length := by
  cases pfx with
  | none => rfl
  | some n => exact ndata_length_lower n

theorem digestA6_eq {p : UInt8} {suffix : Bytes} {pfx : Option AbsName} (h128 : p.toNat ≤ 128)
    (hlen : suffix.length = 16 - p.toNat / 8) (hp : pfx.isSome ↔ p.toNat ≠ 0) :
    digestA6 (p :: (suffix ++ prefixName pfx)) = .ok (p :: (suffix ++ prefixDigest pfx)) := by
  have hoct : 1 + 16 - p.toNat / 8 = (p :: suffix).length := by simp [hlen]; omega
  simp only [digestA6, byteAt_zero, ok_then]
  rw [← cons_append, bytesAt_append hoct, ok_then, consume_append hoct]
  cases pfx with
  | none =>
    have h0 : p.toNat = 0 := by simpa using hp
    rw [if_pos h0]
    simp [prefixDigest]
    rfl
  | some n =>
    have h0 : p.toNat ≠ 0 := by simpa using hp
    rw [if_neg h0, ok_then, prefixName, nameFromregion_self, ok_then, digest_name]
    rfl

theorem a6_agree {p1 p2 : UInt8} {s1 s2 : Bytes} {x1 x2 : Option AbsName} (h1 : p1.toNat ≤ 128)
    (hl1 : s1.length = 16 - p1.toNat / 8) (hp1 : x1.isSome ↔ p1.toNat ≠ 0) (h2 : p2.toNat ≤ 128)
    (hl2 : s2.length = 16 - p2.toNat / 8) (hp2 : x2.isSome ↔ p2.toNat ≠ 0) :
    Agree .a6 (p1 :: (s1 ++ prefixName x1)) (p2 :: (s2 ++ prefixName x2)) := by
  refine ⟨_, _, digestA6_eq h1 hl1 hp1, digestA6_eq h2 hl2 hp2, ?_, ?_, ?_⟩
  · simp [prefixDigest_length]
  · simp [prefixDigest_length]
  · rw [compareSwitch, compareA6, requireNonempty_ok (by simp) (by simp), ok_then, byteAt_zero, ok_then, byteAt_zero,
      ok_then, consume_one, ok_then, consume_one, ok_then, List.compare_cons_cons, compare_uint8]
    simp only [UInt8.lt_iff_toNat_lt]
    obtain hlt | heq | hgt := lt_trichotomy p1.toNat p2.toNat
    · rw [if_pos hlt, compare_lt_iff_lt.2 hlt]
      rfl
    · rw [if_neg (by omega), if_neg (by omega), compare_eq_iff_eq.2 heq, Ordering.eq_then]
      rw [← heq] at hl2 hp2
      have hnames : x1.isSome → compareNames (prefixName x1) (prefixName x2) (fun _ _ => pure .eq) =
          .ok (compare (prefixDigest x1) (prefixDigest x2)) := by
        intro hs
        obtain ⟨a, rfl⟩ := Option.isSome_iff_exists.1 hs
        obtain ⟨b, rfl⟩ := Option.isSome_iff_exists.1 (hp2.2 (hp1.1 hs))
        exact compareNames_end a b
      by_cases hoct : 0 < 16 - p1.toNat / 8
      · rw [if_pos hoct, memcmp_append hl1 hl2, LexOrder.compare_append (hl1.trans hl2.symm)]
        apply thenOrder_ok
        by_cases h0 : p1.toNat = 0
        · rw [if_pos h0]
          have e1 : x1 = none := by simpa [h0] using hp1
          have e2 : x2 = none := by simpa [h0] using hp2
          subst e1 e2
          rfl
        · rw [if_neg h0, consume_append hl1.symm, ok_then, consume_append hl2.symm, ok_then]
          exact hnames (hp1.2 h0)
      rw [if_neg hoct]
      have e1 : s1 = [] := eq_nil_of_length_eq_zero (by omega)
      have e2 : s2 = [] := eq_nil_of_length_eq_zero (by omega)
      subst e1 e2
      exact hnames (hp1.2 (by omega))
    · rw [if_neg (by omega), if_pos hgt, compare_gt_iff_gt.2 hgt]
      rfl

theorem uri_agree (f1 f2 g1 g2 : Bytes) (h1 : f1.length = 2) (h2 : f2.length = 2) (k1 : g1.length = 2)
    (k2 : g2.length = 2) (t1 t2 : Bytes) : Agree .uri (f1 ++ (g1 ++ t1)) (f2 ++ (g2 ++ t2)) := by
  refine ⟨_, _, rfl, rfl, rfl, rfl, ?_⟩
  have e1 : f1 ++ (g1 ++ t1) ≠ [] := fun h => by simp [append_eq_nil_iff.1 h] at h1
  have e2 : f2 ++ (g2 ++ t2) ≠ [] := fun h => by simp [append_eq_nil_iff.1 h] at h2
  rw [compareSwitch, compareUri, requireNonempty_ok e1 e2, ok_then]
  apply compareFixed_append h1 h2
  apply compareFixed_append k1 k2
  rw [regionCompare_eq]
  rfl

theorem region_agree {type : RdataType} (hd : ∀ r, digestSwitch r type = .ok r)
    (hc : compareSwitch r1 r2 type = .ok (regionCompare r1 r2)) : Agree type r1 r2 :=
  ⟨r1, r2, hd r1, hd r2, rfl, rfl, by rw [hc, regionCompare_eq]⟩

theorem compareNonempty_ok (h1 : r1 ≠ []) (h2 : r2 ≠ []) : compareNonempty r1 r2 = .ok (regionCompare r1 r2) := by
  rw [compareNonempty, requireNonempty_ok h1 h2, ok_then]
  rfl

/-- **Order and digest agree** on the accepted rdata of every type but NXT (RRSIG is not digested). -/
theorem agree_of_layout {validate : Bytes → ℤ} {type : RdataType} {r1 r2 : Bytes}
    (h1 : Layout validate type r1) (h2 : Layout validate type r2) (hn : type ≠ .nxt) (hs : type ≠ .rrsig) :
    Agree type r1 r2 := by
  cases h1 with
  | wks r1 h51 =>
    cases h2 with
    | wks r2 h52 =>
      have e1 : r1 ≠ [] := fun h => by simp [h] at h51
      have e2 : r2 ≠ [] := fun h => by simp [h] at h52
      exact region_agree (fun _ => rfl) (compareNonempty_ok e1 e2)
  | soa a1 b1 t1 =>
    cases h2 with
    | soa a2 b2 t2 => exact soa_agree a1 b1 a2 b2 t1 t2
  | txt | apl | unknown => exact region_agree (fun _ => rfl) rfl
  | px p1 q1 a1 b1 =>
    cases h2 with
    | px p2 q2 a2 b2 => exact px_agree [p1, q1] [p2, q2] a1 b1 a2 b2 rfl rfl
  | loc =>
    cases h2 with
    | loc => exact region_agree (fun _ => rfl) (compareNonempty_ok (by simp) (by simp))
  | nxt => exact absurd rfl hn
  | srv p1 q1 v1 w₁ x1 y1 a1 =>
    cases h2 with
    | srv p2 q2 v2 w₂ x2 y2 a2 =>
      exact srv_agree [p1, q1, v1, w₁, x1, y1] [p2, q2, v2, w₂, x2, y2] a1 a2 rfl rfl
  | naptr o1 o1' p1 p1' fl1 sl1 rl1 fs1 ss1 rs1 a1 hf1 hs1 hr1 =>
    cases h2 with
    | naptr o2 o2' p2 p2' fl2 sl2 rl2 fs2 ss2 rs2 a2 hf2 hs2 hr2 =>
      exact naptr_agree [o1, o1', p1, p1'] [o2, o2', p2, p2'] rfl hf1 hs1 hr1 rfl hf2 hs2 hr2 a1 a2
  | a6 p1 s1 x1 h1 hl1 hpad1 hp1 =>
    cases h2 with
    | a6 p2 s2 x2 h2 hl2 hpad2 hp2 => exact a6_agree h1 hl1 hp1 h2 hl2 hp2
  | ipseckey p1 g1 a1 gw1 k1 hg1 =>
    cases h2 with
    | ipseckey p2 g2 a2 gw2 k2 hg2 =>
      refine region_agree (fun _ => rfl) ?_
      rw [compareSwitch, compareIpseckey, require_true (by simp), ok_then]
      rfl
  | rrsig => exact absurd rfl hs
  | nsec a1 b1 =>
    cases h2 with
    | nsec a2 b2 =>
      exact region_agree (fun _ => rfl) (compareNonempty_ok (by simp [ndata_ne_nil]) (by simp [ndata_ne_nil]))
  | nsec3 =>
    cases h2 with
    | nsec3 => exact region_agree (fun _ => rfl) (compareNonempty_ok (by simp) (by simp))
  | hip =>
    cases h2 with
    | hip => exact region_agree (fun _ => rfl) (compareNonempty_ok (by simp) (by simp))
  | uri p1 p1' w₁ w1' t1 =>
    cases h2 with
    | uri p2 p2' w₂ w2' t2 =>
      exact uri_agree [p1, p1'] [p2, p2'] [w₁, w1'] [w₂, w2'] rfl rfl rfl rfl t1 t2

/-! ### NXT -/

/-- When `compare_nxt` agrees with `digest_nxt`: the names differ, or they are the same bytes, or the bytes of the
names compare as the bitmaps do. -/
def NxtAgree (r1 r2 : Bytes) : Prop :=
  ∀ name1 name2, nameFromregion r1 = .ok name1 → nameFromregion r2 = .ok name2 → name1.equal name2 = true →
    name1.caseequal name2 = true ∨
      regionCompare name1.ndata name2.ndata = regionCompare (r1.drop name1.length) (r2.drop name2.length)

theorem nxtAgree_iff (a b : AbsName) (x y : Bytes) : NxtAgree (a.name.ndata ++ x) (b.name.ndata ++ y) ↔
    (a.name.lower = b.name.lower → a.name = b.name ∨ compare a.name.ndata b.name.ndata = compare x y) := by
  have hda : (a.name.ndata ++ x).drop a.name.length = x := drop_left
  have hdb : (b.name.ndata ++ y).drop b.name.length = y := drop_left
  have hcase := Name.caseequal_iff a.valid.label_le b.valid.label_le
  constructor
  · intro h he
    have h' := h a.name b.name (nameFromregion_append a x) (nameFromregion_append b y) ((Name.equal_iff _ _).2 he)
    rw [hcase, regionCompare_eq, regionCompare_eq, hda, hdb] at h'
    exact h'
  · intro h name1 name2 h1 h2 he
    rw [nameFromregion_append] at h1 h2
    cases h1
    cases h2
    rw [hcase, regionCompare_eq, regionCompare_eq, hda, hdb]
    exact h ((Name.equal_iff _ _).1 he)

theorem digestNxt_eq (a : AbsName) (x : Bytes) : digestNxt (a.name.ndata ++ x) = .ok (a.name.lower.ndata ++ x) := by
  simp only [digestNxt, nameFromregion_append, digest_name, consume_name, ok_then]
  rfl

theorem rdatacompare_eq_iff {a b : AbsName} {o : Ordering}
    (hcmp : ∀ x y : Bytes, compare (a.name.lower.ndata ++ x) (b.name.lower.ndata ++ y) = o.then (compare x y)) :
    o = .eq ↔ a.name.lower = b.name.lower := by
  have h := hcmp [] []
  rw [append_nil, append_nil, Std.ReflOrd.compare_self, Ordering.then_eq] at h
  rw [← h, Std.LawfulEqOrd.compare_eq_iff_eq]
  constructor
  · intro he
    have hlow : ∀ n : AbsName, ∀ l ∈ n.name.lower.labels, l.length ≤ 63 := by
      intro n l hl
      obtain ⟨l', hl', rfl⟩ := mem_map.1 hl
      rw [Label.lower_length]
      exact n.valid.label_le l' hl'
    exact congrArg Name.mk (Name.ndata_inj (hlow a) (hlow b) he)
  · intro he
    rw [he]

theorem nxt_compare (a b : AbsName) (x y : Bytes) : ∃ o, compareNxt (a.name.ndata ++ x) (b.name.ndata ++ y) = .ok o ∧
      (o = compare (a.name.lower.ndata ++ x) (b.name.lower.ndata ++ y) ↔
        NxtAgree (a.name.ndata ++ x) (b.name.ndata ++ y)) := by
  obtain ⟨o, ho, hcmp⟩ := a.rdatacompare_digest b
  refine ⟨o.then (compare (a.name.ndata ++ x) (b.name.ndata ++ y)), ?_, ?_⟩
  · rw [compareNxt, requireNonempty_ok (by simp [ndata_ne_nil]) (by simp [ndata_ne_nil]), ok_then, compareNames,
      nameFromregion_append, ok_then, nameFromregion_append, ok_then, ho, ← regionCompare_eq]
    exact thenOrder_ok rfl
  · rw [hcmp, nxtAgree_iff, ← rdatacompare_eq_iff hcmp]
    cases o with
    | lt => simp
    | gt => simp
    | eq =>
      have hlower := (rdatacompare_eq_iff hcmp).1 rfl
      have hlen : a.name.ndata.length = b.name.ndata.length := by
        rw [← ndata_length_lower, ← ndata_length_lower, hlower]
      have hab : compare a.name.ndata b.name.ndata = .eq ↔ a.name = b.name := by
        rw [Std.LawfulEqOrd.compare_eq_iff_eq]
        exact ⟨fun h => congrArg Name.mk (Name.ndata_inj a.valid.label_le b.valid.label_le h), fun h => by rw [h]⟩
      rw [Ordering.eq_then, Ordering.eq_then, LexOrder.compare_append hlen, ← hab]
      cases compare a.name.ndata b.name.ndata <;> cases compare x y <;> simp

end Bind9.Rdata
