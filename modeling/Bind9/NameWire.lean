import Bind9.Region

/-! # Names in memory

A `dns_name_t` points to `length` bytes, knows how many labels stand in them and may have a table of their offsets.
`dns_name_fullcompare` and `dns_name_equal` walk through these bytes; reading outside the bytes or the table is
`Stop.overrun`.  On names that are in order (`DnsName.Is`) they do what `Name.fullcompare` and `Name.equal` do on the labels,
and the order is the lexicographic order of the lower-case labels from the root on. -/

namespace Bind9

open List

/-- `dns_name_t`; `ndata` are the `length` bytes. -/
structure DnsName where
  ndata : Bytes
  labels : ℕ
  absolute : Bool
  offsets : Option (List ℕ)
deriving DecidableEq, Repr

/-- The name in memory is `n`, and its offsets table is right as far as it is used. -/
structure DnsName.Is (x : DnsName) (n : Name) : Prop where
  valid : n.Valid
  ndata : x.ndata = n.ndata
  labels : x.labels = n.countlabels
  absolute : x.absolute = n.isabsolute
  offsets : ∀ table, x.offsets = some table → n.offsets <+: table

def offsetAt (offsets : List ℕ) (i : ℕ) : Exec ℕ :=
  match offsets[i]? with
  | some o => .ok o
  | none => .error .overrun

/-- The loop of `set_offsets`, in which `left` more labels may be entered into the table: the table, where it ends, and whether
the name is absolute. -/
def setOffsetsFrom (ndata : Bytes) : ℕ → ℕ → Exec (List ℕ × ℕ × Bool)
  | 0, offset => if offset = ndata.length then .ok ([], offset, false) else .error .assertion
  | left + 1, offset =>
    if offset = ndata.length then .ok ([], offset, false)
    else do
      let count ← byteAt ndata offset
      require (count.toNat ≤ 63)
      require (offset + 1 + count.toNat ≤ ndata.length)
      if count = 0 then return ([offset], offset + 1, true)
      else do
        let (table, last, absolute) ← setOffsetsFrom ndata left (offset + 1 + count.toNat)
        return (offset :: table, last, absolute)

namespace DnsName

/-- `set_offsets` without a name to set. -/
def setOffsets (x : DnsName) : Exec (List ℕ) := do
  let (table, last, _) ← setOffsetsFrom x.ndata 128 0
  require (table.length == x.labels)
  require (last == x.ndata.length)
  return table

def setupOffsets (x : DnsName) : Exec (List ℕ) :=
  match x.offsets with
  | some table => .ok table
  | none => x.setOffsets

/-- The difference of two label counts, as `dns_name_fullcompare` computes it in `unsigned int`. -/
def labelsDiff (l1 l2 : ℕ) : ℤ :=
  if l1 < l2 then (0 - (BitVec.ofNat 32 l2 - BitVec.ofNat 32 l1)).toInt else (BitVec.ofNat 32 l1 - BitVec.ofNat 32 l2).toInt

/-- The loop of `dns_name_fullcompare` over the bytes of two labels: `chdiff` when it is not 0. -/
def compareBytes (ndata1 ndata2 : Bytes) : ℕ → ℕ → ℕ → Exec (Option ℤ)
  | _, _, 0 => .ok none
  | p1, p2, count + 1 => do
    let c1 ← byteAt ndata1 p1
    let c2 ← byteAt ndata2 p2
    let chdiff : ℤ := ((maptolower c1).toNat : ℤ) - (maptolower c2).toNat
    if chdiff ≠ 0 then return some chdiff
    else compareBytes ndata1 ndata2 (p1 + 1) (p2 + 1) count

/-- Two labels: the difference of their bytes, or else of their lengths. -/
def compareLabel (ndata1 ndata2 : Bytes) (p1 p2 : ℕ) : Exec (Option ℤ) := do
  let count1 ← byteAt ndata1 p1
  let count2 ← byteAt ndata2 p2
  require (count1.toNat ≤ 63 && count2.toNat ≤ 63)
  let cdiff : ℤ := (count1.toNat : ℤ) - count2.toNat
  let chdiff ← compareBytes ndata1 ndata2 (p1 + 1) (p2 + 1) (if cdiff < 0 then count1.toNat else count2.toNat)
  match chdiff with
  | some chdiff => return some chdiff
  | none => return if cdiff ≠ 0 then some cdiff else none

/-- The loop over the labels, the last ones first: the order when two labels differ, and the labels in common. -/
def compareLabels (ndata1 ndata2 : Bytes) (offsets1 offsets2 : List ℕ) : ℕ → ℕ → ℕ → ℕ → Exec (Option ℤ × ℕ)
  | 0, _, _, nlabels => .ok (none, nlabels)
  | l + 1, l1, l2, nlabels => do
    let p1 ← offsetAt offsets1 (l1 - 1)
    let p2 ← offsetAt offsets2 (l2 - 1)
    let diff ← compareLabel ndata1 ndata2 p1 p2
    match diff with
    | some order => return (some order, nlabels)
    | none => compareLabels ndata1 ndata2 offsets1 offsets2 l (l1 - 1) (l2 - 1) (nlabels + 1)

/-- `dns_name_fullcompare`: relation, order, common labels. -/
def fullcompare (x y : DnsName) : Exec (NameReln × ℤ × ℕ) := do
  require (x.absolute == y.absolute)
  let offsets1 ← x.setupOffsets
  let offsets2 ← y.setupOffsets
  let ldiff := labelsDiff x.labels y.labels
  let (diff, nlabels) ← compareLabels x.ndata y.ndata offsets1 offsets2 (if x.labels < y.labels then x.labels else y.labels)
    x.labels y.labels 0
  match diff with
  | some order => return (if 0 < nlabels then .commonancestor else .none, order, nlabels)
  | none => return (if ldiff < 0 then .contains else if 0 < ldiff then .subdomain else .equal, ldiff, nlabels)

/-- The loop of `dns_name_equal` over the bytes of a label. -/
def equalBytes (ndata1 ndata2 : Bytes) (p : ℕ) : ℕ → Exec Bool
  | 0 => .ok true
  | count + 1 => do
    let c1 ← byteAt ndata1 p
    let c2 ← byteAt ndata2 p
    if maptolower c1 ≠ maptolower c2 then return false else equalBytes ndata1 ndata2 (p + 1) count

/-- The loop of `dns_name_equal` over the labels; both names are read at one place. -/
def equalLabels (ndata1 ndata2 : Bytes) : ℕ → ℕ → Exec Bool
  | 0, _ => .ok true
  | l + 1, p => do
    let count ← byteAt ndata1 p
    let count2 ← byteAt ndata2 p
    if count ≠ count2 then return false
    else do
      require (count.toNat ≤ 63)
      let same ← equalBytes ndata1 ndata2 (p + 1) count.toNat
      if same = false then return false else equalLabels ndata1 ndata2 l (p + 1 + count.toNat)

def equal (x y : DnsName) : Exec Bool := do
  require (x.absolute == y.absolute)
  if x.ndata.length ≠ y.ndata.length then return false
  else if x.labels ≠ y.labels then return false
  else equalLabels x.ndata y.ndata x.labels 0

end DnsName

/-! ### The labels in the bytes -/

namespace Name

/-- How many bytes stand in front of label `i`. -/
def offsetOf (n : Name) (i : ℕ) : ℕ := Name.length ⟨n.labels.take i⟩

theorem offsetsFrom_getElem? : ∀ (ls : List Label) (o i : ℕ), i < ls.length →
    (offsetsFrom o ls)[i]? = some (o + Name.length ⟨ls.take i⟩)
  | l :: ls, o, 0, _ => by simp [offsetsFrom, length, ndata]
  | l :: ls, o, i + 1, h => by
    rw [offsetsFrom, getElem?_cons_succ, offsetsFrom_getElem? ls _ i (by simpa using h), take_succ_cons, length_cons]
    congr 1
    omega
theorem offsetsFrom_length : ∀ (ls : List Label) (o : ℕ), (offsetsFrom o ls).length = ls.length
  | [], _ => rfl
  | l :: ls, o => congrArg (· + 1) (offsetsFrom_length ls (o + l.length + 1))
theorem offsets_getElem? {n : Name} {i : ℕ} (h : i < n.countlabels) : n.offsets[i]? = some (n.offsetOf i) := by
  have hget := offsetsFrom_getElem? n.labels 0 i h
  rw [Nat.zero_add] at hget
  exact hget

/-- The bytes from label `i` on. -/
theorem drop_offsetOf (n : Name) (i : ℕ) : n.ndata.drop (n.offsetOf i) = Name.ndata ⟨n.labels.drop i⟩ := by
  have hsplit : n.ndata = Name.ndata ⟨n.labels.take i⟩ ++ Name.ndata ⟨n.labels.drop i⟩ := by
    rw [← Name.ndata_append, take_append_drop]
  rw [hsplit]
  exact drop_left

end Name

theorem byteAt_of_drop {bs rest : Bytes} {p : ℕ} {c : UInt8} (h : bs.drop p = c :: rest) : byteAt bs p = .ok c := by
  have hget : bs[p]? = some c := by
    rw [← head?_drop, h]
    rfl
  unfold byteAt
  rw [hget]

theorem drop_succ_of_drop {bs rest : Bytes} {p : ℕ} {c : UInt8} (h : bs.drop p = c :: rest) : bs.drop (p + 1) = rest := by
  rw [← drop_drop, h]
  rfl

namespace DnsName

section labels

variable {x y : Bytes}

theorem compareBytes_spec : ∀ (l1 l2 : Label) {r1 r2 : Bytes} {p1 p2 : ℕ}, x.drop p1 = l1 ++ r1 → y.drop p2 = l2 ++ r2 →
    (Name.labelDiff l1 l2 ≠ 0 ∧ compareBytes x y p1 p2 (min l1.length l2.length) = .ok (some (Name.labelDiff l1 l2))) ∨
    (Name.labelDiff l1 l2 = (l1.length : ℤ) - l2.length ∧ compareBytes x y p1 p2 (min l1.length l2.length) = .ok none)
  | [], [], _, _, _, _, _, _ => Or.inr ⟨rfl, rfl⟩
  | [], _ :: _, _, _, _, _, _, _ => by
    refine .inr ⟨?_, ?_⟩
    · rw [Name.labelDiff]
      · simp
      · simp
    · rw [length_nil, Nat.zero_min]
      rfl
  | _ :: _, [], _, _, _, _, _, _ => by
    refine .inr ⟨?_, ?_⟩
    · rw [Name.labelDiff]
      · simp
      · simp
    · rw [length_nil, Nat.min_zero]
      rfl
  | c1 :: l1, c2 :: l2, r1, r2, p1, p2, h1, h2 => by
    have hmin : min (c1 :: l1).length (c2 :: l2).length = min l1.length l2.length + 1 := by
      rw [List.length_cons, List.length_cons, Nat.add_min_add_right]
    rw [hmin, compareBytes, byteAt_of_drop h1, byteAt_of_drop h2, Name.labelDiff]
    simp only [ok_then]
    by_cases hc : maptolower c1 = maptolower c2
    · have hzero : ((maptolower c1).toNat : ℤ) - (maptolower c2).toNat = 0 := by
        rw [hc]
        exact sub_self _
      rw [if_neg (not_not.2 hc), if_neg (not_not.2 hzero)]
      have ih := compareBytes_spec l1 l2 (drop_succ_of_drop h1) (drop_succ_of_drop h2)
      have hlen : (((c1 :: l1).length : ℕ) : ℤ) - ((c2 :: l2).length : ℕ) = (l1.length : ℤ) - l2.length := by
        simp
      rw [hlen]
      exact ih
    have hne : ((maptolower c1).toNat : ℤ) - (maptolower c2).toNat ≠ 0 := by
      intro hzero
      apply hc
      apply UInt8.toNat_inj.1
      omega
    rw [if_pos hc, if_pos hne]
    exact .inl ⟨hne, rfl⟩

theorem compareLabel_spec {l1 l2 : Label} {r1 r2 : Bytes} {p1 p2 : ℕ} (hl1 : l1.length ≤ 63) (hl2 : l2.length ≤ 63)
    (h1 : x.drop p1 = l1.wire ++ r1) (h2 : y.drop p2 = l2.wire ++ r2) :
    compareLabel x y p1 p2 = .ok (if Name.labelDiff l1 l2 ≠ 0 then some (Name.labelDiff l1 l2) else none) := by
  unfold compareLabel
  rw [byteAt_of_drop h1, byteAt_of_drop h2]
  simp only [ok_then, toNat_ofNat_length hl1, toNat_ofNat_length hl2]
  rw [require_true (by simp [hl1, hl2]), ok_then]
  have hmin : (if (l1.length : ℤ) - l2.length < 0 then l1.length else l2.length) = min l1.length l2.length := by
    split <;> omega
  rw [hmin]
  obtain ⟨hne, hcompare⟩ | ⟨heq, hcompare⟩ :=
    compareBytes_spec l1 l2 (drop_succ_of_drop h1) (drop_succ_of_drop h2)
  · rw [hcompare, if_pos hne]
    rfl
  · rw [hcompare, heq]
    rfl

theorem offsetAt_of_isPrefix {offsets table : List ℕ} {i o : ℕ} (h : offsets <+: table) (ho : offsets[i]? = some o) :
    offsetAt table i = .ok o := by
  obtain ⟨rest, rfl⟩ := h
  have hlt := (List.getElem?_eq_some_iff.1 ho).1
  unfold offsetAt
  rw [getElem?_append_left hlt, ho]

end labels

theorem compareLabels_spec {a b : Name} {t1 t2 : List ℕ} (ha : a.Valid) (hb : b.Valid) (ht1 : a.offsets <+: t1)
    (ht2 : b.offsets <+: t2) (ldiff : ℤ) : ∀ (l l1 l2 nlabels : ℕ), l = min l1 l2 → l1 ≤ a.countlabels → l2 ≤ b.countlabels →
    ∃ o k, compareLabels a.ndata b.ndata t1 t2 l l1 l2 nlabels = .ok (o, k) ∧
      Name.compareFrom ldiff (a.labels.take l1).reverse (b.labels.take l2).reverse nlabels =
        (o.isNone, o.getD ldiff, k)
  | 0, l1, l2, nlabels, hl, _, _ => by
    refine ⟨none, nlabels, rfl, ?_⟩
    have hzero : l1 = 0 ∨ l2 = 0 := by omega
    obtain rfl | rfl := hzero
    · rw [take_zero, reverse_nil, Name.compareFrom]
      · rfl
      · simp
    rw [take_zero, reverse_nil, Name.compareFrom]
    · rfl
    · simp
  | l + 1, 0, l2, nlabels, hl, _, _ => by omega
  | l + 1, l1 + 1, 0, nlabels, hl, _, _ => by omega
  | l + 1, l1 + 1, l2 + 1, nlabels, hl, h1, h2 => by
    obtain ⟨o, k, hloop, hfrom⟩ := compareLabels_spec ha hb ht1 ht2 ldiff l l1 l2 (nlabels + 1) (by omega) (by omega) (by omega)
    have hrev1 : (a.labels.take (l1 + 1)).reverse = a.labels[l1] :: (a.labels.take l1).reverse := by
      rw [take_succ_eq_append_getElem h1, reverse_append]
      rfl
    have hrev2 : (b.labels.take (l2 + 1)).reverse = b.labels[l2] :: (b.labels.take l2).reverse := by
      rw [take_succ_eq_append_getElem h2, reverse_append]
      rfl
    have hdrop1 : a.ndata.drop (a.offsetOf l1) = (a.labels[l1]).wire ++ Name.ndata ⟨a.labels.drop (l1 + 1)⟩ := by
      rw [a.drop_offsetOf, drop_eq_getElem_cons h1]
      rfl
    have hdrop2 : b.ndata.drop (b.offsetOf l2) = (b.labels[l2]).wire ++ Name.ndata ⟨b.labels.drop (l2 + 1)⟩ := by
      rw [b.drop_offsetOf, drop_eq_getElem_cons h2]
      rfl
    have hlabel := compareLabel_spec (ha.label_le _ (getElem_mem h1)) (hb.label_le _ (getElem_mem h2)) hdrop1 hdrop2
    rw [hrev1, hrev2, Name.compareFrom, compareLabels, Nat.add_sub_cancel, Nat.add_sub_cancel,
      offsetAt_of_isPrefix ht1 (Name.offsets_getElem? h1), offsetAt_of_isPrefix ht2 (Name.offsets_getElem? h2)]
    simp only [ok_then, hlabel]
    by_cases hd : Name.labelDiff a.labels[l1] b.labels[l2] = 0
    · rw [if_neg (not_not.2 hd), if_neg (not_not.2 hd)]
      exact ⟨o, k, hloop, hfrom⟩
    · rw [if_pos hd, if_pos hd]
      exact ⟨_, nlabels, rfl, rfl⟩

end DnsName

/-! ### The offsets table -/

theorem Name.Valid.countlabels_le {n : Name} (h : n.Valid) : n.countlabels ≤ 128 := by
  obtain ⟨ls⟩ := n
  cases hls : ls.getLast? with
  | none =>
    rw [getLast?_eq_none_iff.1 hls]
    exact Nat.zero_le _
  | some l =>
    have hsplit : ls = ls.dropLast ++ [l] := (dropLast_append_getLast? l hls).symm
    have htwo := AbsName.two_mul_length_le ls.dropLast h.inner_ne
    have hlen : Name.length ⟨ls⟩ ≤ 255 := h.length_le
    rw [hsplit, Name.length_append, Name.length_cons] at hlen
    have hcount : Name.countlabels ⟨ls⟩ = ls.dropLast.length + 1 := by
      unfold Name.countlabels
      conv_lhs => rw [hsplit]
      rw [List.length_append, length_singleton]
    omega

theorem setOffsetsFrom_spec {bs : Bytes} : ∀ (ls : List Label) (left o : ℕ), (∀ l ∈ ls, l.length ≤ 63) →
    (∀ l ∈ ls.dropLast, l ≠ []) → ls.length ≤ left → o ≤ bs.length → bs.drop o = Name.ndata ⟨ls⟩ →
    setOffsetsFrom bs left o = .ok (Name.offsetsFrom o ls, bs.length, ls.getLast? == some [])
  | [], left, o, _, _, _, hle, hdrop => by
    have ho : o = bs.length := Nat.le_antisymm hle (drop_eq_nil_iff.1 hdrop)
    cases left <;> simp [setOffsetsFrom, ho, Name.offsetsFrom]
  | l :: ls, left + 1, o, hlabel, hinner, hleft, hle, hdrop => by
    have hwire : bs.drop o = UInt8.ofNat l.length :: (l ++ Name.ndata ⟨ls⟩) := hdrop
    have hl := hlabel l mem_cons_self
    have hlen := congrArg List.length hwire
    rw [length_drop, List.length_cons, List.length_append] at hlen
    have hne : o ≠ bs.length := by omega
    have hcount := toNat_ofNat_length hl
    rw [setOffsetsFrom, if_neg hne, byteAt_of_drop hwire]
    simp only [ok_then, hcount]
    rw [require_true (decide_eq_true hl), ok_then, require_true (decide_eq_true (by omega)), ok_then]
    by_cases hzero : l = []
    · subst hzero
      have hls : ls = [] := by
        by_contra hcons
        refine hinner [] ?_ rfl
        rw [dropLast_cons_of_ne_nil hcons]
        exact mem_cons_self
      subst hls
      have hend : o + 1 = bs.length := by
        have hnil : (Name.ndata ⟨[]⟩).length = 0 := rfl
        rw [hnil, length_nil] at hlen
        omega
      simp [Name.offsetsFrom, hend, pure, Except.pure]
    have hpos : UInt8.ofNat l.length ≠ 0 := by
      intro hz
      rw [hz] at hcount
      exact hzero (length_eq_zero_iff.1 hcount.symm)
    have hrest : bs.drop (o + 1 + l.length) = Name.ndata ⟨ls⟩ := by
      rw [← drop_drop, drop_succ_of_drop hwire]
      exact drop_left
    have hinner' : ∀ l' ∈ ls.dropLast, l' ≠ [] := by
      intro l' hl'
      apply hinner
      rw [dropLast_cons_of_ne_nil (fun hnil => by rw [hnil] at hl'; cases hl')]
      exact mem_cons_of_mem l hl'
    have ih := setOffsetsFrom_spec ls left (o + 1 + l.length) (fun l' hl' => hlabel l' (mem_cons_of_mem l hl')) hinner'
      (by simpa using hleft) (by omega) hrest
    rw [if_neg hpos, ih]
    have horder : o + 1 + l.length = o + l.length + 1 := by omega
    have hlast : (l :: ls).getLast? = ls.getLast? ∨ ls = [] := by
      cases ls with
      | nil => exact .inr rfl
      | cons l' ls' => exact .inl getLast?_cons_cons
    have habs : ((l :: ls).getLast? == some []) = (ls.getLast? == some []) := by
      obtain heq | hnil := hlast
      · rw [heq]
      · subst hnil
        simp [hzero]
    rw [habs, horder]
    rfl

namespace DnsName

section compare

variable {x y : DnsName} {a b : Name}

theorem Is.setOffsets (h : x.Is a) : x.setOffsets = .ok a.offsets := by
  have hspec := setOffsetsFrom_spec a.labels 128 0 h.valid.label_le h.valid.inner_ne h.valid.countlabels_le (Nat.zero_le _)
    (h.ndata ▸ rfl : x.ndata.drop 0 = Name.ndata ⟨a.labels⟩)
  have hlen : (Name.offsetsFrom 0 a.labels).length = x.labels := by
    rw [h.labels]
    exact Name.offsetsFrom_length a.labels 0
  unfold DnsName.setOffsets
  rw [hspec]
  simp only [ok_then]
  rw [require_true (beq_iff_eq.2 hlen), ok_then, require_true (beq_iff_eq.2 rfl)]
  rfl

theorem Is.setupOffsets (h : x.Is a) : ∃ table, x.setupOffsets = .ok table ∧ a.offsets <+: table := by
  unfold DnsName.setupOffsets
  cases ho : x.offsets with
  | some table => exact ⟨table, rfl, h.offsets table ho⟩
  | none => exact ⟨a.offsets, h.setOffsets, prefix_refl _⟩

theorem labelsDiff_eq {l1 l2 : ℕ} (h1 : l1 ≤ 128) (h2 : l2 ≤ 128) : labelsDiff l1 l2 = (l1 : ℤ) - l2 := by
  have hint : ∀ {l : ℕ}, l ≤ 128 → (BitVec.ofNat 32 l).toInt = l := by
    intro l hl
    rw [BitVec.toInt_eq_toNat_bmod, BitVec.toNat_ofNat]
    simp only [Int.bmod]
    omega
  have hzero : (0 : BitVec 32).toInt = 0 := rfl
  unfold labelsDiff
  split
  · rw [BitVec.toInt_sub, BitVec.toInt_sub, hint h1, hint h2, hzero]
    simp only [Int.bmod]
    omega
  rw [BitVec.toInt_sub, hint h1, hint h2]
  simp only [Int.bmod]
  omega

theorem Is.fullcompare (hx : x.Is a) (hy : y.Is b) (habs : x.absolute = y.absolute) :
    x.fullcompare y = .ok (a.fullcompare b) := by
  obtain ⟨t1, ho1, ht1⟩ := hx.setupOffsets
  obtain ⟨t2, ho2, ht2⟩ := hy.setupOffsets
  have hdiff := labelsDiff_eq hx.valid.countlabels_le hy.valid.countlabels_le
  have hmin : (if a.countlabels < b.countlabels then a.countlabels else b.countlabels) =
      min a.countlabels b.countlabels := by
    split <;> omega
  obtain ⟨o, k, hloop, hfrom⟩ := compareLabels_spec hx.valid hy.valid ht1 ht2 ((a.countlabels : ℤ) - b.countlabels) _
    a.countlabels b.countlabels 0 rfl (le_refl _) (le_refl _)
  have htake1 : a.labels.take a.countlabels = a.labels := take_length
  have htake2 : b.labels.take b.countlabels = b.labels := take_length
  rw [htake1, htake2] at hfrom
  unfold DnsName.fullcompare Name.fullcompare
  rw [require_true (beq_iff_eq.2 habs), ho1, ho2]
  simp only [ok_then]
  rw [hx.labels, hy.labels, hx.ndata, hy.ndata, hmin, hloop, hfrom, hdiff]
  cases o with
  | none => rfl
  | some order => rfl

theorem equalBytes_spec {u w : Bytes} : ∀ (l1 l2 : Label) {r1 r2 : Bytes} {p : ℕ}, l1.length = l2.length →
    u.drop p = l1 ++ r1 → w.drop p = l2 ++ r2 → equalBytes u w p l1.length = .ok (Name.equalBytes l1 l2)
  | [], [], _, _, _, _, _, _ => rfl
  | c1 :: l1, c2 :: l2, r1, r2, p, hlen, h1, h2 => by
    rw [List.length_cons, equalBytes, byteAt_of_drop h1, byteAt_of_drop h2, Name.equalBytes]
    simp only [ok_then]
    have hlen' : l1.length = l2.length := by simpa using hlen
    split
    · rfl
    · exact equalBytes_spec l1 l2 hlen' (drop_succ_of_drop h1) (drop_succ_of_drop h2)

theorem equalLabels_spec {u w : Bytes} : ∀ (ls1 ls2 : List Label) {r1 r2 : Bytes} {p : ℕ},
    ls1.length = ls2.length → (∀ l ∈ ls1, l.length ≤ 63) → (∀ l ∈ ls2, l.length ≤ 63) →
    u.drop p = Name.ndata ⟨ls1⟩ ++ r1 → w.drop p = Name.ndata ⟨ls2⟩ ++ r2 →
    equalLabels u w ls1.length p = .ok (Name.equalLabels ls1 ls2)
  | [], [], _, _, _, _, _, _, _, _ => rfl
  | l1 :: ls1, l2 :: ls2, r1, r2, p, hlen, hls1, hls2, h1, h2 => by
    have hl1 := hls1 l1 mem_cons_self
    have hl2 := hls2 l2 mem_cons_self
    have hu : u.drop p = UInt8.ofNat l1.length :: (l1 ++ (Name.ndata ⟨ls1⟩ ++ r1)) := by
      rw [h1, ← append_assoc]
      rfl
    have hw : w.drop p = UInt8.ofNat l2.length :: (l2 ++ (Name.ndata ⟨ls2⟩ ++ r2)) := by
      rw [h2, ← append_assoc]
      rfl
    rw [List.length_cons, equalLabels, byteAt_of_drop hu, byteAt_of_drop hw, Name.equalLabels]
    simp only [ok_then, toNat_ofNat_length hl1]
    by_cases hlen' : l1.length = l2.length
    · have hcount : UInt8.ofNat l1.length = UInt8.ofNat l2.length := by rw [hlen']
      rw [if_neg (not_not.2 hcount), if_neg (not_not.2 hlen'), require_true (decide_eq_true hl1), ok_then,
        equalBytes_spec l1 l2 hlen' (drop_succ_of_drop hu) (drop_succ_of_drop hw)]
      simp only [ok_then]
      have hrest1 : u.drop (p + 1 + l1.length) = Name.ndata ⟨ls1⟩ ++ r1 := by
        rw [← drop_drop, drop_succ_of_drop hu]
        exact drop_left
      have hrest2 : w.drop (p + 1 + l1.length) = Name.ndata ⟨ls2⟩ ++ r2 := by
        rw [hlen', ← drop_drop, drop_succ_of_drop hw]
        exact drop_left
      have ih := equalLabels_spec ls1 ls2 (by simpa using hlen) (fun l hl => hls1 l (mem_cons_of_mem l1 hl))
        (fun l hl => hls2 l (mem_cons_of_mem l2 hl)) hrest1 hrest2
      cases heq : Name.equalBytes l1 l2 with
      | false => rfl
      | true => exact ih
    have hcount : UInt8.ofNat l1.length ≠ UInt8.ofNat l2.length := by
      intro heq
      have hnat := congrArg UInt8.toNat heq
      rw [toNat_ofNat_length hl1, toNat_ofNat_length hl2] at hnat
      exact hlen' hnat
    rw [if_pos hcount, if_pos hlen']
    rfl

theorem Is.equal (hx : x.Is a) (hy : y.Is b) (habs : x.absolute = y.absolute) : x.equal y = .ok (a.equal b) := by
  have hbytes : a.ndata.length = b.ndata.length ↔ a.length = b.length := Iff.rfl
  unfold DnsName.equal Name.equal
  rw [require_true (beq_iff_eq.2 habs), ok_then, hx.labels, hy.labels, hx.ndata, hy.ndata]
  simp only [ne_eq, hbytes]
  by_cases hlen : a.length = b.length
  · by_cases hcount : a.countlabels = b.countlabels
    · simp only [hlen, hcount, not_true_eq_false, if_false]
      rw [← hcount]
      exact equalLabels_spec a.labels b.labels hcount hx.valid.label_le hy.valid.label_le (append_nil _).symm
        (append_nil _).symm
    · simp only [hlen, hcount, not_true_eq_false, not_false_eq_true, if_false, if_true]
      rfl
  · simp only [hlen, not_false_eq_true, if_true]
    rfl

end compare

end DnsName

/-! ### The order -/

/-- How many elements two lists have in common at their start. -/
def commonStart {α : Type} [DecidableEq α] : List α → List α → ℕ
  | x :: xs, y :: ys => if x = y then commonStart xs ys + 1 else 0
  | _, _ => 0

namespace Name

theorem labelDiff_eq_zero {l1 l2 : Label} : labelDiff l1 l2 = 0 ↔ l1.lower = l2.lower := by
  rw [← compare_eq_iff_eq, sign_labelDiff, Std.compare_eq_iff_eq]

/-- The number of labels in common is the one that the loop counts, and the loop ends before a difference exactly when one of
the names has no more labels. -/
theorem compareFrom_common (ldiff : ℤ) : ∀ (t1 t2 : List Label) (n : ℕ),
    (compareFrom ldiff t1 t2 n).2.2 = n + commonStart (t1.map Label.lower) (t2.map Label.lower) ∧
    ((compareFrom ldiff t1 t2 n).1 = true ↔
      commonStart (t1.map Label.lower) (t2.map Label.lower) = min t1.length t2.length)
  | [], _, n => by
    rw [compareFrom]
    · simp [commonStart]
    · simp
  | _ :: _, [], n => by
    rw [compareFrom]
    · simp [commonStart]
    · simp
  | l1 :: t1, l2 :: t2, n => by
    obtain ⟨hcount, hend⟩ := compareFrom_common ldiff t1 t2 (n + 1)
    rw [compareFrom, map_cons, map_cons, commonStart]
    by_cases hd : labelDiff l1 l2 = 0
    · rw [if_neg (not_not.2 hd), if_pos (labelDiff_eq_zero.1 hd), hcount, hend]
      simp only [List.length_cons]
      omega
    · rw [if_pos hd, if_neg (fun heq => hd (labelDiff_eq_zero.2 heq))]
      simp

/-- The relation, by the number of labels in common. -/
def relation (labels1 labels2 nlabels : ℕ) : NameReln :=
  if nlabels = labels1 ∧ nlabels = labels2 then .equal
  else if nlabels = labels2 then .subdomain
  else if nlabels = labels1 then .contains
  else if 0 < nlabels then .commonancestor
  else .none

theorem commonStart_le {α : Type} [DecidableEq α] : ∀ xs ys : List α, commonStart xs ys ≤ min xs.length ys.length
  | [], _ => by simp [commonStart]
  | _ :: _, [] => by simp [commonStart]
  | x :: xs, y :: ys => by
    have ih := commonStart_le xs ys
    rw [commonStart]
    split <;> simp only [List.length_cons] <;> omega

theorem fullcompare_common (a b : Name) : (a.fullcompare b).2.2 = commonStart a.orderKey b.orderKey ∧
    (a.fullcompare b).1 = relation a.countlabels b.countlabels (commonStart a.orderKey b.orderKey) := by
  have hspec := compareFrom_common ((a.countlabels : ℤ) - b.countlabels) a.labels.reverse b.labels.reverse 0
  have hle := commonStart_le a.orderKey b.orderKey
  have hkey1 : a.orderKey.length = a.countlabels := by simp [orderKey, countlabels]
  have hkey2 : b.orderKey.length = b.countlabels := by simp [orderKey, countlabels]
  rw [← orderKey, ← orderKey, Nat.zero_add, length_reverse, length_reverse] at hspec
  rw [hkey1, hkey2] at hle
  have hmin : min a.labels.length b.labels.length = min a.countlabels b.countlabels := rfl
  rw [hmin] at hspec
  unfold relation
  generalize hloop : compareFrom ((a.countlabels : ℤ) - b.countlabels) a.labels.reverse b.labels.reverse 0 = result at hspec
  obtain ⟨ended, order, nlabels⟩ := result
  obtain ⟨hcount, hend⟩ := hspec
  subst hcount
  cases ended with
  | true =>
    have heq := hend.1 rfl
    have hfull : a.fullcompare b = (if (a.countlabels : ℤ) - b.countlabels < 0 then .contains
        else if 0 < (a.countlabels : ℤ) - b.countlabels then .subdomain else .equal, order,
        commonStart a.orderKey b.orderKey) := by
      unfold fullcompare
      simp only [hloop]
    rw [hfull]
    refine ⟨rfl, ?_⟩
    rw [heq]
    split_ifs <;> first | rfl | omega
  | false =>
    have hne : commonStart a.orderKey b.orderKey ≠ min a.countlabels b.countlabels := fun heq => by cases hend.2 heq
    have hfull : a.fullcompare b = (if 0 < commonStart a.orderKey b.orderKey then .commonancestor else .none, order,
        commonStart a.orderKey b.orderKey) := by
      unfold fullcompare
      simp only [hloop]
    rw [hfull]
    refine ⟨rfl, ?_⟩
    split_ifs <;> first | rfl | omega

end Name

/-- `dns_name_fullcompare` on names that are all absolute or all relative: it returns, its order has the sign of the
lexicographic order of the lower-case labels from the root on and is 0 exactly where `dns_name_equal` holds, and the number of
labels in common decides the relation; the order is antisymmetric and transitive. -/
theorem fullcompare_canonical_order {x y z : DnsName} {a b c : Name} (hx : x.Is a) (hy : y.Is b) (hz : z.Is c)
    (hxy : x.absolute = y.absolute) (hyz : y.absolute = z.absolute) :
    (∃ reln order nlabels, x.fullcompare y = .ok (reln, order, nlabels) ∧ compare order 0 = compare a.orderKey b.orderKey ∧
      nlabels = commonStart a.orderKey b.orderKey ∧ reln = Name.relation a.countlabels b.countlabels nlabels ∧
      x.equal y = .ok (decide (order = 0))) ∧
    (∀ result result', x.fullcompare y = .ok result → y.fullcompare x = .ok result' →
      compare result'.2.1 0 = (compare result.2.1 0).swap) ∧
    (∀ result result' result'', x.fullcompare y = .ok result → y.fullcompare z = .ok result' →
      x.fullcompare z = .ok result'' → result.2.1 ≤ 0 → result'.2.1 ≤ 0 →
      result''.2.1 ≤ 0 ∧ (result.2.1 < 0 ∨ result'.2.1 < 0 → result''.2.1 < 0)) := by
  obtain ⟨hcommon, hreln⟩ := Name.fullcompare_common a b
  have hsign : ∀ n n' : Name, compare (n.fullcompare n').2.1 0 = compare n.orderKey n'.orderKey := Name.sign_compare
  refine ⟨⟨(a.fullcompare b).1, (a.fullcompare b).2.1, (a.fullcompare b).2.2, hx.fullcompare hy hxy, hsign a b, hcommon, ?_, ?_⟩,
    fun result result' h h' => ?_, fun result result' result'' h h' h'' h1 h2 => ?_⟩
  · rw [hcommon]
    exact hreln
  · rw [hx.equal hy hxy]
    congr 1
    rw [Bool.eq_iff_iff, Name.equal_iff, decide_eq_true_iff, ← Name.orderKey_inj, ← Std.compare_eq_iff_eq, ← hsign a b,
      compare_eq_iff_eq]
  · cases Except.ok.inj (h.symm.trans (hx.fullcompare hy hxy))
    cases Except.ok.inj (h'.symm.trans (hy.fullcompare hx hxy.symm))
    rw [hsign, hsign]
    exact Std.OrientedOrd.eq_swap
  · cases Except.ok.inj (h.symm.trans (hx.fullcompare hy hxy))
    cases Except.ok.inj (h'.symm.trans (hy.fullcompare hz hyz))
    cases Except.ok.inj (h''.symm.trans (hx.fullcompare hz (hxy.trans hyz)))
    have hle : ∀ n n' : Name, (n.fullcompare n').2.1 ≤ 0 ↔ (compare n.orderKey n'.orderKey).isLE = true := by
      intro n n'
      rw [← hsign, Std.isLE_compare]
    have hlt : ∀ n n' : Name, (n.fullcompare n').2.1 < 0 ↔ compare n.orderKey n'.orderKey = .lt := by
      intro n n'
      rw [← hsign, compare_lt_iff_lt]
    rw [hle] at h1 h2
    rw [hle, hlt, hlt, hlt]
    exact ⟨Std.TransCmp.isLE_trans h1 h2, fun h => h.elim (fun h => Std.TransCmp.lt_of_lt_of_isLE h h2)
      (fun h => Std.TransCmp.lt_of_isLE_of_lt h1 h)⟩

/-- `A.b.`, `c.B.` and the root. -/
theorem fullcompare_canonical_order_three : ∃ reln order nlabels,
    DnsName.fullcompare ⟨[1, 65, 1, 98, 0], 3, true, none⟩ ⟨[1, 99, 1, 66, 0], 3, true, some [0, 2, 4]⟩ = .ok (reln, order, nlabels) ∧
      compare order 0 = .lt ∧ nlabels = 2 ∧ reln = .commonancestor := by
  have ha : DnsName.Is ⟨[1, 65, 1, 98, 0], 3, true, none⟩ ⟨[[65], [98], []]⟩ := ⟨by decide, rfl, rfl, rfl, nofun⟩
  have hb : DnsName.Is ⟨[1, 99, 1, 66, 0], 3, true, some [0, 2, 4]⟩ ⟨[[99], [66], []]⟩ := by
    refine ⟨by decide, rfl, rfl, rfl, fun table h => ?_⟩
    cases h
    exact prefix_refl _
  have hc : DnsName.Is ⟨[0], 1, true, none⟩ ⟨[[]]⟩ := ⟨by decide, rfl, rfl, rfl, nofun⟩
  obtain ⟨⟨reln, order, nlabels, h, hsign, hnlabels, hreln, -⟩, -⟩ := fullcompare_canonical_order ha hb hc rfl rfl
  have hcommon : nlabels = 2 := hnlabels.trans (by decide)
  refine ⟨reln, order, nlabels, h, hsign.trans (by decide), hcommon, ?_⟩
  rw [hreln, hcommon]
  decide

end Bind9
