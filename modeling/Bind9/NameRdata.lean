import Bind9.NameFromwire
import Bind9.Lib.LexOrder

/-! # Names as rdata

`dns_name_rdatacompare` orders two absolute names as they stand in canonical rdata: label by label from the left, the length
byte first.  That is the order of the bytes that `dns_name_downcase` writes. -/

namespace Bind9

open List

namespace DnsName

/-- The loop of `dns_name_rdatacompare` over the bytes of two labels of one length. -/
def rdatacompareBytes (ndata1 ndata2 : Bytes) : ℕ → ℕ → ℕ → Exec (Option ℤ)
  | _, _, 0 => .ok none
  | p1, p2, count + 1 => do
    let c1 ← byteAt ndata1 p1
    let c2 ← byteAt ndata2 p2
    if maptolower c1 < maptolower c2 then return some (-1)
    else if maptolower c2 < maptolower c1 then return some 1
    else rdatacompareBytes ndata1 ndata2 (p1 + 1) (p2 + 1) count

/-- The loop over the labels. -/
def rdatacompareLabels (ndata1 ndata2 : Bytes) : ℕ → ℕ → ℕ → Exec (Option ℤ)
  | 0, _, _ => .ok none
  | l + 1, p1, p2 => do
    let count1 ← byteAt ndata1 p1
    let count2 ← byteAt ndata2 p2
    require (count1.toNat ≤ 63 && count2.toNat ≤ 63)
    if count1 ≠ count2 then return some (if count1 < count2 then -1 else 1)
    else
      match ← rdatacompareBytes ndata1 ndata2 (p1 + 1) (p2 + 1) count1.toNat with
      | some order => return some order
      | none => rdatacompareLabels ndata1 ndata2 l (p1 + 1 + count1.toNat) (p2 + 1 + count1.toNat)

def rdatacompare (x y : DnsName) : Exec ℤ := do
  require (0 < x.labels)
  require x.absolute
  require (0 < y.labels)
  require y.absolute
  match ← rdatacompareLabels x.ndata y.ndata (if x.labels < y.labels then x.labels else y.labels) 0 0 with
  | some order => return order
  | none =>
    require (x.labels == y.labels)
    return 0

/-- The loop of `dns_name_downcase`: what it writes. -/
def downcaseBytes : ℕ → Bytes → Exec Bytes
  | 0, _ => .ok []
  | _ + 1, [] => .ok []
  | labels + 1, count :: sndata => do
    require (count.toNat < 64)
    require (count.toNat ≤ sndata.length)
    let ndata ← downcaseBytes labels (sndata.drop count.toNat)
    return count :: (sndata.take count.toNat).map maptolower ++ ndata

/-- `dns_name_downcase` into another name, which has an offsets table or not: the name, the target and the result. -/
def downcase (source : DnsName) (target : Buffer) (table : Bool) : Exec (DnsName × Buffer × Result) := do
  if target.length - target.used < source.ndata.length then return (.empty table, target, .nospace)
  else
    let ndata ← downcaseBytes source.labels source.ndata
    -- `isc_buffer_add` counts the length of the source
    if ndata.length ≠ source.ndata.length then .error .overrun
    else
      let name : DnsName := ⟨ndata, source.labels, source.absolute, none⟩
      let offsets ← if 0 < source.labels ∧ table then some <$> name.setOffsets else pure (if table then some [] else none)
      return ({ name with offsets := offsets }, target.put ndata, .success)

/-- `dns_name_downcase` of a name in place. -/
def downcaseSelf (source : DnsName) : Exec DnsName := do
  let ndata ← downcaseBytes source.labels source.ndata
  return { source with ndata := ndata ++ source.ndata.drop ndata.length }

section spec

variable {x y : Bytes}

theorem lower_wire (l : Label) : l.lower.wire = UInt8.ofNat l.length :: l.lower := by simp [Label.wire, Label.lower]

theorem rdatacompareBytes_spec : ∀ (l1 l2 : Label) {r1 r2 : Bytes} {p1 p2 : ℕ}, l1.length = l2.length →
    x.drop p1 = l1 ++ r1 → y.drop p2 = l2 ++ r2 →
    (∃ o, rdatacompareBytes x y p1 p2 l1.length = .ok (some o) ∧ o ≠ 0 ∧ compare o 0 = compare l1.lower l2.lower) ∨
      (rdatacompareBytes x y p1 p2 l1.length = .ok none ∧ l1.lower = l2.lower)
  | [], [], _, _, _, _, _, _, _ => Or.inr ⟨rfl, rfl⟩
  | [], _ :: _, _, _, _, _, hlen, _, _ => by simp at hlen
  | _ :: _, [], _, _, _, _, hlen, _, _ => by simp at hlen
  | c1 :: l1, c2 :: l2, r1, r2, p1, p2, hlen, h1, h2 => by
    have hlower : compare (Label.lower (c1 :: l1)) (Label.lower (c2 :: l2)) =
        (compare (maptolower c1) (maptolower c2)).then (compare (Label.lower l1) (Label.lower l2)) :=
      List.compare_cons_cons ..
    rw [length_cons, rdatacompareBytes, byteAt_of_drop h1, byteAt_of_drop h2]
    simp only [ok_then]
    by_cases hlt : maptolower c1 < maptolower c2
    · rw [if_pos hlt]
      refine .inl ⟨-1, rfl, by decide, ?_⟩
      have hc : compare (maptolower c1) (maptolower c2) = .lt := by
        rw [compare_uint8, compare_lt_iff_lt]
        exact UInt8.lt_iff_toNat_lt.1 hlt
      rw [hlower, hc]
      rfl
    rw [if_neg hlt]
    by_cases hgt : maptolower c2 < maptolower c1
    · rw [if_pos hgt]
      refine .inl ⟨1, rfl, by decide, ?_⟩
      have hc : compare (maptolower c1) (maptolower c2) = .gt := by
        rw [compare_uint8, compare_gt_iff_gt]
        exact UInt8.lt_iff_toNat_lt.1 hgt
      rw [hlower, hc]
      rfl
    have heq : maptolower c1 = maptolower c2 := UInt8.le_antisymm (UInt8.not_lt.1 hgt) (UInt8.not_lt.1 hlt)
    rw [if_neg hgt]
    obtain ⟨o, ho, hne, hcompare⟩ | ⟨ho, hl⟩ := rdatacompareBytes_spec l1 l2 (by simpa using hlen)
      (drop_succ_of_drop h1) (drop_succ_of_drop h2)
    · refine .inl ⟨o, ho, hne, ?_⟩
      rw [hlower, heq, Std.ReflOrd.compare_self, hcompare]
      rfl
    refine .inr ⟨ho, ?_⟩
    simp only [Label.lower, map_cons, heq, cons.injEq, true_and]
    exact hl

variable {l1 l2 : Label}

theorem compare_length_wire (h1 : l1.length ≤ 63) (h2 : l2.length ≤ 63) (r1 r2 : Bytes) :
    compare (l1.wire ++ r1) (l2.wire ++ r2) = (compare l1.length l2.length).then (compare (l1 ++ r1) (l2 ++ r2)) := by
  show compare (UInt8.ofNat l1.length :: (l1 ++ r1)) (UInt8.ofNat l2.length :: (l2 ++ r2)) = _
  rw [List.compare_cons_cons, compare_uint8, toNat_ofNat_length h1, toNat_ofNat_length h2]

theorem lower_ndata_cons (l : Label) (ls : List Label) :
    (Name.lower ⟨l :: ls⟩).ndata = l.lower.wire ++ (Name.lower ⟨ls⟩).ndata := by simp [Name.lower, Name.ndata]

theorem ofNat_length_ne (h1 : l1.length ≤ 63) (h2 : l2.length ≤ 63) :
    UInt8.ofNat l1.length ≠ UInt8.ofNat l2.length ↔ l1.length ≠ l2.length := by
  constructor
  · intro h heq
    exact h (by rw [heq])
  · intro h heq
    have := congrArg UInt8.toNat heq
    rw [toNat_ofNat_length h1, toNat_ofNat_length h2] at this
    exact h this

theorem rdatacompareLabels_length {t1 t2 : List Label} {p1 p2 : ℕ} (h1 : l1.length ≤ 63) (h2 : l2.length ≤ 63)
    (hne : l1.length ≠ l2.length) (hx : x.drop p1 = Name.ndata ⟨l1 :: t1⟩) (hy : y.drop p2 = Name.ndata ⟨l2 :: t2⟩) (n : ℕ) :
    ∃ o, rdatacompareLabels x y (n + 1) p1 p2 = .ok (some o) ∧ o ≠ 0 ∧
      compare o 0 = compare (Name.lower ⟨l1 :: t1⟩).ndata (Name.lower ⟨l2 :: t2⟩).ndata := by
  have hlen : ∀ l : Label, l.lower.length = l.length := fun l => by simp [Label.lower]
  have hcompare : compare (Name.lower ⟨l1 :: t1⟩).ndata (Name.lower ⟨l2 :: t2⟩).ndata = compare l1.length l2.length := by
    rw [lower_ndata_cons, lower_ndata_cons, compare_length_wire (by rw [hlen]; exact h1) (by rw [hlen]; exact h2), hlen, hlen]
    cases hc : compare l1.length l2.length with
    | lt => rfl
    | gt => rfl
    | eq => exact absurd (compare_eq_iff_eq.1 hc) hne
  refine ⟨if UInt8.ofNat l1.length < UInt8.ofNat l2.length then -1 else 1, ?_, ?_, ?_⟩
  · rw [rdatacompareLabels, byteAt_of_drop (show x.drop p1 = UInt8.ofNat l1.length :: _ from hx),
      byteAt_of_drop (show y.drop p2 = UInt8.ofNat l2.length :: _ from hy)]
    simp only [ok_then, toNat_ofNat_length h1, toNat_ofNat_length h2]
    rw [require_true (by simp [h1, h2]), ok_then, if_pos ((ofNat_length_ne h1 h2).2 hne)]
    rfl
  · split <;> decide
  · rw [hcompare]
    have hiff : UInt8.ofNat l1.length < UInt8.ofNat l2.length ↔ l1.length < l2.length := by
      rw [UInt8.lt_iff_toNat_lt, toNat_ofNat_length h1, toNat_ofNat_length h2]
    by_cases hlt : l1.length < l2.length
    · have hlt' : compare l1.length l2.length = .lt := compare_lt_iff_lt.2 hlt
      rw [if_pos (hiff.2 hlt), hlt']
      rfl
    have hgt : compare l1.length l2.length = .gt := compare_gt_iff_gt.2 (by omega)
    rw [if_neg (fun h => hlt (hiff.1 h)), hgt]
    rfl

/-- The loop over the labels of two absolute names stops at the first difference of their lower-case bytes. -/
theorem rdatacompareLabels_spec : ∀ (us vs : List Label) {p1 p2 : ℕ}, Inner us → Inner vs →
    x.drop p1 = Name.ndata ⟨us ++ [[]]⟩ → y.drop p2 = Name.ndata ⟨vs ++ [[]]⟩ →
    (∃ o, rdatacompareLabels x y (min (us.length + 1) (vs.length + 1)) p1 p2 = .ok (some o) ∧ o ≠ 0 ∧
      compare o 0 = compare (Name.lower ⟨us ++ [[]]⟩).ndata (Name.lower ⟨vs ++ [[]]⟩).ndata) ∨
      (rdatacompareLabels x y (min (us.length + 1) (vs.length + 1)) p1 p2 = .ok none ∧
        us.map Label.lower = vs.map Label.lower)
  | [], [], p1, p2, _, _, hx, hy => by
    refine .inr ⟨?_, rfl⟩
    have hx' : x.drop p1 = [0] := hx
    have hy' : y.drop p2 = [0] := hy
    simp only [length_nil, Nat.zero_add, Nat.min_self]
    rw [rdatacompareLabels, byteAt_of_drop hx', byteAt_of_drop hy']
    rfl
  | [], v :: vs, _, _, _, hvs, hx, hy => by
    obtain ⟨hle, hne⟩ := hvs v (by simp)
    have hlen : 0 < v.length := length_pos_iff.2 hne
    left
    have hmin : min (([] : List Label).length + 1) ((v :: vs).length + 1) = 0 + 1 := by simp
    rw [hmin]
    have hnil : ([] : Label).length ≤ 63 := by simp
    exact rdatacompareLabels_length hnil hle (by simp; omega) hx hy 0
  | u :: us, [], _, _, hus, _, hx, hy => by
    obtain ⟨hle, hne⟩ := hus u (by simp)
    have hlen : 0 < u.length := length_pos_iff.2 hne
    left
    have hmin : min ((u :: us).length + 1) (([] : List Label).length + 1) = 0 + 1 := by simp
    rw [hmin]
    have hnil : ([] : Label).length ≤ 63 := by simp
    exact rdatacompareLabels_length hle hnil (by simp; omega) hx hy 0
  | u :: us, v :: vs, p1, p2, hus, hvs, hx, hy => by
    obtain ⟨hu, -⟩ := hus u (by simp)
    obtain ⟨hv, -⟩ := hvs v (by simp)
    have hmin : min ((u :: us).length + 1) ((v :: vs).length + 1) = min (us.length + 1) (vs.length + 1) + 1 := by
      simp only [length_cons]
      omega
    rw [hmin]
    by_cases hlen : u.length = v.length
    · have hlower : ∀ l : Label, l.lower.length = l.length := fun l => by simp [Label.lower]
      have hcompare : compare (Name.lower ⟨u :: us ++ [[]]⟩).ndata (Name.lower ⟨v :: vs ++ [[]]⟩).ndata =
          (compare u.lower v.lower).then
            (compare (Name.lower ⟨us ++ [[]]⟩).ndata (Name.lower ⟨vs ++ [[]]⟩).ndata) := by
        rw [cons_append, cons_append, lower_ndata_cons, lower_ndata_cons,
          compare_length_wire (by rw [hlower]; exact hu) (by rw [hlower]; exact hv), hlower, hlower, hlen,
          Std.ReflOrd.compare_self, Ordering.eq_then]
        exact LexOrder.compare_append (by rw [hlower, hlower, hlen])
      have hx' : x.drop p1 = UInt8.ofNat u.length :: (u ++ Name.ndata ⟨us ++ [[]]⟩) := hx
      have hy' : y.drop p2 = UInt8.ofNat v.length :: (v ++ Name.ndata ⟨vs ++ [[]]⟩) := hy
      have hnext : ∀ {z : Bytes} {p : ℕ} {l : Label} {rest : Bytes}, z.drop (p + 1) = l ++ rest →
          z.drop (p + 1 + l.length) = rest := by
        intro z p l rest h
        rw [← drop_drop, h, drop_left]
      rw [rdatacompareLabels, byteAt_of_drop hx', byteAt_of_drop hy']
      simp only [ok_then, toNat_ofNat_length hu, toNat_ofNat_length hv]
      rw [require_true (by simp [hu, hv]), ok_then, if_neg (not_not.2 (by rw [hlen]))]
      obtain ⟨o, ho, hne, hsign⟩ | ⟨ho, heq⟩ := rdatacompareBytes_spec u v hlen (drop_succ_of_drop hx')
        (drop_succ_of_drop hy')
      · left
        refine ⟨o, by rw [ho]; rfl, hne, ?_⟩
        rw [hcompare, ← hsign]
        cases hc : compare o 0 with
        | lt => rfl
        | gt => rfl
        | eq => exact absurd (compare_eq_iff_eq.1 hc) hne
      rw [ho]
      simp only [ok_then]
      have hy2 := hnext (drop_succ_of_drop hy')
      rw [← hlen] at hy2
      obtain ⟨o, ho', hne, hsign⟩ | ⟨ho', heq'⟩ := rdatacompareLabels_spec us vs (fun l hl => hus l (by simp [hl]))
        (fun l hl => hvs l (by simp [hl])) (hnext (drop_succ_of_drop hx')) hy2
      · left
        refine ⟨o, ho', hne, ?_⟩
        rw [hcompare, heq, Std.ReflOrd.compare_self, Ordering.eq_then]
        exact hsign
      · right
        exact ⟨ho', by rw [map_cons, map_cons, heq, heq']⟩
    · left
      exact rdatacompareLabels_length hu hv hlen hx hy _

theorem downcaseBytes_spec : ∀ ls : List Label, (∀ l ∈ ls, l.length ≤ 63) →
    downcaseBytes ls.length (Name.ndata ⟨ls⟩) = .ok (Name.lower ⟨ls⟩).ndata
  | [], _ => rfl
  | l :: ls, h => by
    have hl := h l (by simp)
    have hndata : Name.ndata ⟨l :: ls⟩ = UInt8.ofNat l.length :: (l ++ Name.ndata ⟨ls⟩) := rfl
    rw [hndata, length_cons, downcaseBytes]
    simp only [toNat_ofNat_length hl]
    rw [require_true (by simp; omega), ok_then, require_true (by simp), ok_then, drop_left, take_left,
      downcaseBytes_spec ls (fun l' hl' => h l' (by simp [hl'])), lower_ndata_cons, lower_wire]
    rfl

end spec

section order

variable {x y z : DnsName} {a b c : Name}

theorem Is.labels_eq (h : x.Is a) (habs : a.isabsolute = true) : ∃ us, a = ⟨us ++ [[]]⟩ ∧ Inner us := by
  have hlabels := AbsName.labels_eq ⟨a, h.valid, habs⟩
  refine ⟨a.labels.dropLast, congrArg Name.mk hlabels, fun l hl => ⟨?_, h.valid.inner_ne l hl⟩⟩
  exact h.valid.label_le l (dropLast_subset _ hl)

theorem Is.rdatacompare (hx : x.Is a) (hy : y.Is b) (ha : a.isabsolute = true) (hb : b.isabsolute = true) :
    ∃ order, x.rdatacompare y = .ok order ∧ compare order 0 = compare a.lower.ndata b.lower.ndata ∧
      (order = 0 ↔ a.lower = b.lower) := by
  obtain ⟨us, rfl, hus⟩ := hx.labels_eq ha
  obtain ⟨vs, rfl, hvs⟩ := hy.labels_eq hb
  have hxl : x.labels = us.length + 1 := by rw [hx.labels]; simp [Name.countlabels]
  have hyl : y.labels = vs.length + 1 := by rw [hy.labels]; simp [Name.countlabels]
  have hmin : (if x.labels < y.labels then x.labels else y.labels) = min (us.length + 1) (vs.length + 1) := by
    rw [hxl, hyl]
    split <;> omega
  unfold DnsName.rdatacompare
  rw [require_true (by rw [hxl]; simp), ok_then, require_true (by rw [hx.absolute]; exact ha), ok_then,
    require_true (by rw [hyl]; simp), ok_then, require_true (by rw [hy.absolute]; exact hb), ok_then, hmin]
  obtain ⟨o, ho, hne, hsign⟩ | ⟨ho, heq⟩ := rdatacompareLabels_spec (x := x.ndata) (y := y.ndata) us vs hus hvs
    (by rw [drop_zero, hx.ndata]) (by rw [drop_zero, hy.ndata])
  · rw [ho]
    refine ⟨o, rfl, hsign, ⟨fun h => absurd h hne, fun h => ?_⟩⟩
    rw [h, Std.ReflOrd.compare_self] at hsign
    exact compare_eq_iff_eq.1 hsign
  have hlen : us.length = vs.length := by simpa using congrArg List.length heq
  have hlower : Name.lower ⟨us ++ [[]]⟩ = Name.lower ⟨vs ++ [[]]⟩ := by simp [Name.lower, heq]
  rw [ho]
  simp only [ok_then]
  rw [require_true (by rw [hxl, hyl, hlen]; simp), ok_then]
  refine ⟨0, rfl, ?_, ⟨fun _ => hlower, fun _ => rfl⟩⟩
  rw [hlower, Std.ReflOrd.compare_self, Std.ReflOrd.compare_self]

theorem valid_lower (h : a.Valid) : a.lower.Valid where
  label_le := by
    intro l hl
    obtain ⟨l', hl', rfl⟩ := mem_map.1 hl
    simpa [Label.lower] using h.label_le l' hl'
  inner_ne := by
    intro l hl
    rw [Name.lower, ← map_dropLast] at hl
    obtain ⟨l', hl', rfl⟩ := mem_map.1 hl
    simpa [Label.lower] using h.inner_ne l' hl'
  length_le := by
    rw [Name.length_lower]
    exact h.length_le

theorem isabsolute_lower (n : Name) : n.lower.isabsolute = n.isabsolute := by
  unfold Name.isabsolute Name.lower
  rw [getLast?_map]
  cases n.labels.getLast? with
  | none => rfl
  | some l => cases l <;> rfl

theorem Is.downcase (hx : x.Is a) {target : Buffer} (hroom : x.ndata.length ≤ target.length - target.used) (table : Bool) :
    (∃ x', x.downcase target table = .ok (x', target.put a.lower.ndata, .success) ∧ x'.ndata = a.lower.ndata ∧ x'.Is a.lower) ∧
      x.downcaseSelf = .ok { x with ndata := a.lower.ndata } := by
  have hbytes : downcaseBytes x.labels x.ndata = .ok a.lower.ndata := by
    rw [hx.labels, hx.ndata]
    exact downcaseBytes_spec a.labels hx.valid.label_le
  have hlen : a.lower.ndata.length = x.ndata.length := by
    rw [hx.ndata]
    exact Name.length_lower a
  have hname : DnsName.Is ⟨a.lower.ndata, x.labels, x.absolute, none⟩ a.lower :=
    ⟨valid_lower hx.valid, rfl, by rw [hx.labels]; simp [Name.countlabels, Name.lower],
      by rw [isabsolute_lower]; exact hx.absolute, nofun⟩
  constructor
  · unfold DnsName.downcase
    rw [if_neg (by omega), hbytes]
    simp only [ok_then]
    rw [if_neg (not_not.2 hlen)]
    by_cases hcond : 0 < x.labels ∧ table = true
    · rw [if_pos hcond, hname.setOffsets]
      refine ⟨_, rfl, rfl, ⟨hname.valid, rfl, hname.labels, hname.absolute, fun t ht => ?_⟩⟩
      cases ht
      exact prefix_refl _
    rw [if_neg hcond]
    refine ⟨_, rfl, rfl, ⟨hname.valid, rfl, hname.labels, hname.absolute, fun t ht => ?_⟩⟩
    have hzero : a.lower.labels = [] := by
      by_contra hne
      have hpos : 0 < x.labels := by
        rw [hname.labels]
        exact length_pos_iff.2 hne
      cases table with
      | true => exact hcond ⟨hpos, rfl⟩
      | false => exact absurd ht (by simp)
    rw [show a.lower.offsets = [] by rw [Name.offsets, hzero]; rfl]
    exact nil_prefix
  · unfold DnsName.downcaseSelf
    rw [hbytes]
    simp only [ok_then]
    rw [hlen, drop_length, append_nil]
    rfl

end order

end DnsName

/-- `dns_name_rdatacompare` on absolute names: it returns, the sign of what it returns is that of the order of the bytes that
`dns_name_downcase` writes for the two names, and it is 0 exactly where `dns_name_equal` holds; the order is antisymmetric and
transitive. -/
theorem rdatacompare_downcase {x y z : DnsName} {a b c : Name} (hx : x.Is a) (hy : y.Is b) (hz : z.Is c)
    (ha : a.isabsolute = true) (hb : b.isabsolute = true) (hc : c.isabsolute = true) :
    (∃ order, x.rdatacompare y = .ok order ∧
      (∀ (target target' : Buffer) (table table' : Bool), x.ndata.length ≤ target.length - target.used →
        y.ndata.length ≤ target'.length - target'.used →
        ∃ x' y', x.downcase target table = .ok (x', target.put x'.ndata, .success) ∧
          y.downcase target' table' = .ok (y', target'.put y'.ndata, .success) ∧
          x.downcaseSelf = .ok { x with ndata := x'.ndata } ∧ compare order 0 = compare x'.ndata y'.ndata) ∧
      x.equal y = .ok (decide (order = 0))) ∧
    (∀ order order', x.rdatacompare y = .ok order → y.rdatacompare x = .ok order' →
      compare order' 0 = (compare order 0).swap) ∧
    (∀ order order' order'', x.rdatacompare y = .ok order → y.rdatacompare z = .ok order' → x.rdatacompare z = .ok order'' →
      order ≤ 0 → order' ≤ 0 → order'' ≤ 0 ∧ (order < 0 ∨ order' < 0 → order'' < 0)) := by
  obtain ⟨oxy, hxy, hsxy, hzero⟩ := hx.rdatacompare hy ha hb
  obtain ⟨oyx, hyx, hsyx, -⟩ := hy.rdatacompare hx hb ha
  obtain ⟨oyz, hyz, hsyz, -⟩ := hy.rdatacompare hz hb hc
  obtain ⟨oxz, hxz, hsxz, -⟩ := hx.rdatacompare hz ha hc
  have habs : x.absolute = y.absolute := by rw [hx.absolute, hy.absolute, ha, hb]
  refine ⟨⟨oxy, hxy, fun target target' table table' hroom hroom' => ?_, ?_⟩, fun order order' h h' => ?_,
    fun order order' order'' h h' h'' h1 h2 => ?_⟩
  · obtain ⟨⟨x', hx', hndata, -⟩, hself⟩ := hx.downcase hroom table
    obtain ⟨⟨y', hy', hndata', -⟩, -⟩ := hy.downcase hroom' table'
    refine ⟨x', y', by rw [hndata]; exact hx', by rw [hndata']; exact hy', by rw [hndata]; exact hself, ?_⟩
    rw [hndata, hndata']
    exact hsxy
  · rw [hx.equal hy habs]
    congr 1
    rw [Bool.eq_iff_iff, Name.equal_iff, decide_eq_true_iff]
    exact hzero.symm
  · cases Except.ok.inj (h.symm.trans hxy)
    cases Except.ok.inj (h'.symm.trans hyx)
    rw [hsyx, hsxy]
    exact Std.OrientedOrd.eq_swap
  · cases Except.ok.inj (h.symm.trans hxy)
    cases Except.ok.inj (h'.symm.trans hyz)
    cases Except.ok.inj (h''.symm.trans hxz)
    have hle : ∀ (o : ℤ) (s t : Bytes), compare o 0 = compare s t → (o ≤ 0 ↔ (compare s t).isLE = true) := by
      intro o s t hs
      rw [← hs, Std.isLE_compare]
    have hlt : ∀ (o : ℤ) (s t : Bytes), compare o 0 = compare s t → (o < 0 ↔ compare s t = .lt) := by
      intro o s t hs
      rw [← hs, compare_lt_iff_lt]
    rw [hle _ _ _ hsxy] at h1
    rw [hle _ _ _ hsyz] at h2
    rw [hle _ _ _ hsxz, hlt _ _ _ hsxy, hlt _ _ _ hsyz, hlt _ _ _ hsxz]
    exact ⟨Std.TransCmp.isLE_trans h1 h2, fun h => h.elim (fun h => Std.TransCmp.lt_of_lt_of_isLE h h2)
      (fun h => Std.TransCmp.lt_of_isLE_of_lt h1 h)⟩

/-- `b.` comes before `A.b.` only in the order from the root; as rdata the bytes of the first labels decide. -/
theorem rdatacompare_downcase_three : ∃ order, DnsName.rdatacompare ⟨[1, 65, 1, 98, 0], 3, true, none⟩ ⟨[1, 98, 0], 2, true, some [0, 2]⟩ =
    .ok order ∧ DnsName.equal ⟨[1, 65, 1, 98, 0], 3, true, none⟩ ⟨[1, 98, 0], 2, true, some [0, 2]⟩ = .ok (decide (order = 0)) := by
  have ha : DnsName.Is ⟨[1, 65, 1, 98, 0], 3, true, none⟩ ⟨[[65], [98], []]⟩ := ⟨by decide, rfl, rfl, rfl, nofun⟩
  have hb : DnsName.Is ⟨[1, 98, 0], 2, true, some [0, 2]⟩ ⟨[[98], []]⟩ := by
    refine ⟨by decide, rfl, rfl, rfl, fun table h => ?_⟩
    cases h
    exact prefix_refl _
  have hc : DnsName.Is ⟨[0], 1, true, none⟩ ⟨[[]]⟩ := ⟨by decide, rfl, rfl, rfl, nofun⟩
  obtain ⟨⟨order, h, -, heq⟩, -⟩ := rdatacompare_downcase ha hb hc rfl rfl rfl
  exact ⟨order, h, heq⟩

end Bind9
