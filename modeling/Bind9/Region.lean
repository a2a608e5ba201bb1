import Bind9.FromWire
import Bind9.NameOrder
import Bind9.Lib.LexOrder

/-! # Regions and buffers

The small functions of `lib/dns/rdata.c` and `lib/isc` that read and write rdata.  An
`isc_region_t` is the list of its bytes; a failed `REQUIRE` or `INSIST`, a read outside a region
and every result other than `ISC_R_SUCCESS` end the computation (`Stop`).

`nameFromregion` is `dns_name_fromregion` with the loop of `set_offsets`;
`nameFromregion_append` says that it finds the name a region starts with, and
`AbsName.rdatacompare_digest` that `dns_name_rdatacompare` orders names as the bytes that
`dns_name_digest` digests for them. -/

namespace Bind9

open List

/-- How a function stops before its end. -/
inductive Stop where
  | assertion
  | overrun
  | result (r : Result)
deriving DecidableEq, Repr

abbrev Exec : Type → Type := Except Stop

def require (b : Bool) : Exec Unit := if b then .ok () else .error .assertion

theorem require_true {b : Bool} (h : b = true) : require b = .ok () := by simp [require, h]

theorem require_ok {b : Bool} {u : Unit} (h : require b = .ok u) : b = true := by
  unfold require at h
  split at h
  · assumption
  · cases h

/-- Returning a result other than `ISC_R_SUCCESS`. -/
def stop {α : Type} (r : Result) : Exec α := .error (.result r)

@[simp] theorem ok_then {ε α β : Type} (a : α) (f : α → Except ε β) :
    (Except.ok a >>= f) = f a := rfl

/-- A sequence of two steps succeeds iff both do. -/
theorem bind_eq_ok {ε α β : Type} {x : Except ε α} {f : α → Except ε β} {b : β}
    (h : (x >>= f) = .ok b) : ∃ a, x = .ok a ∧ f a = .ok b := by
  cases x with
  | error e => cases h
  | ok a => exact ⟨a, rfl, h⟩

/-! ### Reading -/

def consume (r : Bytes) (n : ℕ) : Exec Bytes :=
  if n ≤ r.length then .ok (r.drop n) else .error .assertion

/-- `r.base[i]`. -/
def byteAt (r : Bytes) (i : ℕ) : Exec UInt8 :=
  match r[i]? with
  | some c => .ok c
  | none => .error .overrun

def uint8Fromregion : Bytes → Exec ℕ
  | b0 :: _ => .ok b0.toNat
  | _ => .error .assertion

def uint16Fromregion : Bytes → Exec ℕ
  | b0 :: b1 :: _ => .ok (b0.toNat * 256 + b1.toNat)
  | _ => .error .assertion

def uint32Fromregion : Bytes → Exec ℕ
  | b0 :: b1 :: b2 :: b3 :: _ =>
    .ok (((b0.toNat * 256 + b1.toNat) * 256 + b2.toNat) * 256 + b3.toNat)
  | _ => .error .assertion

/-- The bytes at the start of a region that `memcpy` copies and `memcmp` looks at. -/
def bytesAt (r : Bytes) (n : ℕ) : Exec Bytes :=
  if n ≤ r.length then .ok (r.take n) else .error .overrun

/-- The sign of `memcmp(r1.base, r2.base, n)`. -/
def memcmp (r₁ r₂ : Bytes) (n : ℕ) : Exec Ordering := do
  let a ← bytesAt r₁ n
  let b ← bytesAt r₂ n
  pure (compare a b)

def regionCompare (r₁ r₂ : Bytes) : Ordering :=
  let l := min r₁.length r₂.length
  match compare (r₁.take l) (r₂.take l) with
  | .eq =>
    if r₁.length = r₂.length then .eq
    else if r₁.length < r₂.length then .lt
    else .gt
  | order => order

theorem consume_append {a b : Bytes} {n : ℕ} (h : n = a.length) : consume (a ++ b) n = .ok b := by
  subst h
  simp [consume]

@[simp] theorem consume_one (c : UInt8) (r : Bytes) : consume (c :: r) 1 = .ok r := by
  simp [consume]

@[simp] theorem consume_two (c d : UInt8) (r : Bytes) : consume (c :: d :: r) 2 = .ok r := by
  simp [consume]

@[simp] theorem consume_four (c d e f : UInt8) (r : Bytes) : consume (c :: d :: e :: f :: r) 4 = .ok r := by
  simp [consume]

theorem bytesAt_append {a b : Bytes} {n : ℕ} (h : n = a.length) : bytesAt (a ++ b) n = .ok a := by
  subst h
  simp [bytesAt]

@[simp] theorem byteAt_zero (c : UInt8) (r : Bytes) : byteAt (c :: r) 0 = .ok c := rfl

@[simp] theorem byteAt_succ (c : UInt8) (r : Bytes) (i : ℕ) :
    byteAt (c :: r) (i + 1) = byteAt r i := rfl

theorem regionCompare_eq : ∀ r₁ r₂ : Bytes, regionCompare r₁ r₂ = compare r₁ r₂
  | [], [] => rfl
  | [], _ :: _ => by simp [regionCompare]
  | _ :: _, [] => by simp [regionCompare]
  | a :: r₁, b :: r₂ => by
    have ih := regionCompare_eq r₁ r₂
    simp only [regionCompare, List.length_cons, Nat.add_min_add_right, take_succ_cons,
      List.compare_cons_cons, add_left_inj, add_lt_add_iff_right] at ih ⊢
    rw [← ih]
    cases hab : compare a b <;> rfl

/-! ### Writing -/

def Buffer.available (t : Buffer) : ℕ := t.length - t.used

def memTobuffer (t : Buffer) (bs : Bytes) : Exec Buffer :=
  if t.available < bs.length then stop .nospace else .ok (t.put bs)

def uint8Tobuffer (t : Buffer) (value : ℕ) : Exec Buffer :=
  if 0xff < value then stop .range else memTobuffer t [UInt8.ofNat value]

def uint16Tobuffer (t : Buffer) (value : ℕ) : Exec Buffer :=
  if 0xffff < value then stop .range else memTobuffer t (uint16Bytes value)

def uint32Bytes (v : ℕ) : Bytes :=
  [UInt8.ofNat (v / 16777216), UInt8.ofNat (v / 65536 % 256), UInt8.ofNat (v / 256 % 256), UInt8.ofNat (v % 256)]

theorem uint16Fromregion_append {n : ℕ} (h : n < 65536) (r : Bytes) : uint16Fromregion (uint16Bytes n ++ r) = .ok n := by
  simp only [uint16Bytes, cons_append, uint16Fromregion, UInt8.toNat_ofNat', Except.ok.injEq]
  omega

theorem uint32Fromregion_append {n : ℕ} (h : n < 2 ^ 32) (r : Bytes) : uint32Fromregion (uint32Bytes n ++ r) = .ok n := by
  simp only [uint32Bytes, cons_append, uint32Fromregion, UInt8.toNat_ofNat', Except.ok.injEq]
  omega

theorem uint16Fromregion_of_length {r : Bytes} (h : 2 ≤ r.length) :
    ∃ n, n < 65536 ∧ ∀ y, uint16Fromregion (r ++ y) = .ok n := by
  obtain _ | ⟨a, _ | ⟨b, r⟩⟩ := r
  · simp at h
  · simp at h
  · have ha := a.toNat_lt
    have hb := b.toNat_lt
    exact ⟨a.toNat * 256 + b.toNat, by omega, fun _ => rfl⟩

theorem uint32Fromregion_of_length {r : Bytes} (h : 4 ≤ r.length) : ∃ n, n < 2 ^ 32 ∧ uint32Fromregion r = .ok n := by
  obtain _ | ⟨a, _ | ⟨b, _ | ⟨c, _ | ⟨d, r⟩⟩⟩⟩ := r
  · simp at h
  · simp at h
  · simp at h
  · simp at h
  · have ha := a.toNat_lt
    have hb := b.toNat_lt
    have hc := c.toNat_lt
    have hd := d.toNat_lt
    exact ⟨((a.toNat * 256 + b.toNat) * 256 + c.toNat) * 256 + d.toNat, by omega, rfl⟩

def uint32Tobuffer (t : Buffer) (value : ℕ) : Exec Buffer := memTobuffer t (uint32Bytes value)

theorem memTobuffer_ok {t : Buffer} {bs : Bytes} (h : bs.length ≤ t.available) : memTobuffer t bs = .ok (t.put bs) := by
  rw [memTobuffer, if_neg (by omega)]

theorem memTobuffer_eq_ok {t t' : Buffer} {bs : Bytes} (h : memTobuffer t bs = .ok t') : t' = t.put bs := by
  unfold memTobuffer at h
  split at h
  · cases h
  · exact (Except.ok.inj h).symm

@[simp] theorem Buffer.put_put (t : Buffer) (a b : Bytes) :
    (t.put a).put b = t.put (a ++ b) := by simp [Buffer.put]

@[simp] theorem Buffer.put_available (t : Buffer) (a : Bytes) : (t.put a).available = t.available - a.length := by
  simp only [Buffer.available, Buffer.put_length, Buffer.put_used]
  omega

theorem uint16Bytes_read (b0 b1 : UInt8) : uint16Bytes (b0.toNat * 256 + b1.toNat) = [b0, b1] := by
  have h0 := b0.toNat_lt
  have h1 := b1.toNat_lt
  have e0 : (b0.toNat * 256 + b1.toNat) / 256 = b0.toNat := by omega
  have e1 : (b0.toNat * 256 + b1.toNat) % 256 = b1.toNat := by omega
  simp [uint16Bytes, e0, e1]

theorem uint32Bytes_read (b0 b1 b2 b3 : UInt8) :
    uint32Bytes (((b0.toNat * 256 + b1.toNat) * 256 + b2.toNat) * 256 + b3.toNat) = [b0, b1, b2, b3] := by
  have h1 := b1.toNat_lt
  have h2 := b2.toNat_lt
  have h3 := b3.toNat_lt
  generalize hv : ((b0.toNat * 256 + b1.toNat) * 256 + b2.toNat) * 256 + b3.toNat = v
  have e0 : v / 16777216 = b0.toNat := by omega
  have e1 : v / 65536 % 256 = b1.toNat := by omega
  have e2 : v / 256 % 256 = b2.toNat := by omega
  have e3 : v % 256 = b3.toNat := by omega
  simp [uint32Bytes, e0, e1, e2, e3]

/-! ### Names in a region -/

/-- The loop of `set_offsets`; `left` more labels may be entered into the offsets table. -/
def setOffsets : ℕ → Bytes → Exec (List Label)
  | _, [] => .ok []
  | 0, _ :: _ => .error .assertion
  | left + 1, c :: ndata =>
    if 63 < c.toNat then .error .assertion
    else if ndata.length < c.toNat then .error .assertion
    else if c.toNat = 0 then .ok [[]]
    else do
      let labels ← setOffsets left (ndata.drop c.toNat)
      pure (ndata.take c.toNat :: labels)

/-- `dns_name_fromregion` on a name without a buffer of its own. -/
def nameFromregion (r : Bytes) : Exec Name := do
  let labels ← setOffsets 128 (r.take 255)
  pure ⟨labels⟩

theorem setOffsets_append (rest : Bytes) : ∀ (ls : List Label) (left : ℕ),
    (∀ l ∈ ls, l.length ≤ 63) → (∀ l ∈ ls, l ≠ []) → ls.length < left →
    setOffsets left (Name.ndata ⟨ls ++ [[]]⟩ ++ rest) = .ok (ls ++ [[]])
  | [], left + 1, _, _, _ => by simp [Name.ndata, Label.wire, setOffsets]
  | l :: ls, left + 1, h63, hne, hlt => by
    have ih := setOffsets_append rest ls left (fun x hx => h63 x (by simp [hx]))
      (fun x hx => hne x (by simp [hx])) (by simpa using hlt)
    have hl := h63 l (by simp)
    have hpos : l.length ≠ 0 := by simpa using hne l (by simp)
    have e : Name.ndata ⟨l :: ls ++ [[]]⟩ ++ rest =
        UInt8.ofNat l.length :: (l ++ (Name.ndata ⟨ls ++ [[]]⟩ ++ rest)) := by
      simp [Name.ndata, Label.wire]
    rw [e, setOffsets, toNat_ofNat_length hl, if_neg (by omega), if_neg (by simp), if_neg hpos,
      drop_left, take_left, ih]
    rfl

namespace AbsName

theorem two_mul_length_le : ∀ ls : List Label, (∀ l ∈ ls, l ≠ []) → 2 * ls.length ≤ Name.length ⟨ls⟩
  | [], _ => by simp
  | l :: ls, h => by
    have ih := two_mul_length_le ls (fun x hx => h x (by simp [hx]))
    have hl := length_pos_iff.2 (h l (by simp))
    rw [Name.length_cons, List.length_cons]
    omega

theorem dropLast_length_lt (n : AbsName) : n.name.labels.dropLast.length < 128 := by
  have h := two_mul_length_le _ n.valid.inner_ne
  have hl := n.valid.length_le
  have e : n.name = ⟨n.name.labels.dropLast ++ [[]]⟩ := congrArg Name.mk n.labels_eq
  rw [e, Name.length_append, Name.length_cons] at hl
  simp only [length_nil] at hl
  omega

end AbsName

theorem nameFromregion_append (n : AbsName) (rest : Bytes) : nameFromregion (n.name.ndata ++ rest) = .ok n.name := by
  have e : n.name = ⟨n.name.labels.dropLast ++ [[]]⟩ := congrArg Name.mk n.labels_eq
  have hlen : n.name.ndata.length ≤ 255 := n.valid.length_le
  have h63 : ∀ l ∈ n.name.labels.dropLast, l.length ≤ 63 := fun l hl =>
    n.valid.label_le l (dropLast_subset _ hl)
  have hread := setOffsets_append (rest.take (255 - n.name.ndata.length)) _ 128 h63 n.valid.inner_ne
    n.dropLast_length_lt
  rw [← e, ← n.labels_eq] at hread
  rw [nameFromregion, take_append, take_of_length_le hlen, hread]
  rfl

/-! ### Comparing and digesting names -/

namespace Name

/-- The inner loop of `dns_name_rdatacompare`, on labels of one length. -/
def rdatacompareBytes : Label → Label → Ordering
  | c1 :: l1, c2 :: l2 =>
    if maptolower c1 < maptolower c2 then .lt
    else if maptolower c2 < maptolower c1 then .gt
    else rdatacompareBytes l1 l2
  | _, _ => .eq

/-- The outer loop of `dns_name_rdatacompare`. -/
def rdatacompareLabels : List Label → List Label → Exec Ordering
  | l1 :: t1, l2 :: t2 =>
    if 63 < l1.length ∨ 63 < l2.length then .error .assertion
    else if l1.length < l2.length then .ok .lt
    else if l2.length < l1.length then .ok .gt
    else
      match rdatacompareBytes l1 l2 with
      | .eq => rdatacompareLabels t1 t2
      | order => .ok order
  | _, _ => .ok .eq

def rdatacompare (a b : Name) : Exec Ordering := do
  require (decide (0 < a.countlabels) && a.isabsolute)
  require (decide (0 < b.countlabels) && b.isabsolute)
  match ← rdatacompareLabels a.labels b.labels with
  | .eq => do
    require (decide (a.countlabels = b.countlabels))
    pure .eq
  | order => pure order

/-- `dns_name_digest`: the name in small letters, through a buffer of 256 bytes. -/
def digest (n : Name) : Exec Bytes :=
  if 256 < n.length then stop .nospace else .ok n.lower.ndata

theorem rdatacompareBytes_eq : ∀ {l1 l2 : Label}, l1.length = l2.length →
    rdatacompareBytes l1 l2 = compare l1.lower l2.lower
  | [], [], _ => rfl
  | c1 :: l1, c2 :: l2, h => by
    have ih : rdatacompareBytes l1 l2 = compare (Label.lower l1) (Label.lower l2) :=
      rdatacompareBytes_eq (by simpa using h)
    simp only [rdatacompareBytes, Label.lower, map_cons, List.compare_cons_cons] at ih ⊢
    simp only [ih, compare_uint8, UInt8.lt_iff_toNat_lt]
    obtain hlt | heq | hgt := lt_trichotomy (maptolower c1).toNat (maptolower c2).toNat
    · rw [if_pos hlt, compare_lt_iff_lt.2 hlt]; rfl
    · rw [if_neg (by simp [heq]), if_neg (by simp [heq]), compare_eq_iff_eq.2 heq]; rfl
    · rw [if_neg (not_lt.2 hgt.le), if_pos hgt, compare_gt_iff_gt.2 hgt]; rfl

theorem compare_lengths (l1 l2 : Label) (h1 : l1.length ≤ 63) (h2 : l2.length ≤ 63) :
    compare (UInt8.ofNat l1.length) (UInt8.ofNat l2.length) = compare l1.length l2.length := by
  rw [compare_uint8, toNat_ofNat_length h1, toNat_ofNat_length h2]

theorem ndata_lower_cons (l : Label) (ls : List Label) (z : Bytes) : ndata (lower ⟨l :: ls⟩) ++ z =
    UInt8.ofNat l.length :: (l.lower ++ (ndata (lower ⟨ls⟩) ++ z)) := by
  simp [lower, ndata, Label.wire]

theorem rdatacompareLabels_append {x y : Bytes} : ∀ xs ys : List Label,
    (∀ l ∈ xs, l.length ≤ 63 ∧ l ≠ []) → (∀ l ∈ ys, l.length ≤ 63 ∧ l ≠ []) →
    ∃ o, rdatacompareLabels (xs ++ [[]]) (ys ++ [[]]) = .ok o ∧
      compare (ndata (lower ⟨xs ++ [[]]⟩) ++ x) (ndata (lower ⟨ys ++ [[]]⟩) ++ y) = o.then (compare x y) ∧
      (o = .eq → xs.length = ys.length)
  | [], [], _, _ => ⟨.eq, rfl, rfl, fun _ => rfl⟩
  | [], l2 :: ys, _, hy => by
    obtain ⟨h63, hne⟩ := hy l2 (by simp)
    have hpos := length_pos_iff.2 hne
    refine ⟨.lt, ?_, ?_, nofun⟩
    · simp [rdatacompareLabels, hpos, not_lt.2 h63]
    · have hc := compare_lengths [] l2 (by simp) h63
      have hlt : compare (List.length ([] : Label)) l2.length = .lt := compare_lt_iff_lt.2 hpos
      rw [hlt] at hc
      rw [nil_append, cons_append, ndata_lower_cons, ndata_lower_cons, List.compare_cons_cons, hc]
      rfl
  | l1 :: xs, [], hx, _ => by
    obtain ⟨h63, hne⟩ := hx l1 (by simp)
    have hpos := length_pos_iff.2 hne
    refine ⟨.gt, ?_, ?_, nofun⟩
    · simp [rdatacompareLabels, hpos, not_lt.2 h63]
    · have hc := compare_lengths l1 [] h63 (by simp)
      have hgt : compare l1.length (List.length ([] : Label)) = .gt := compare_gt_iff_gt.2 hpos
      rw [hgt] at hc
      rw [nil_append, cons_append, ndata_lower_cons, ndata_lower_cons, List.compare_cons_cons, hc]
      rfl
  | l1 :: xs, l2 :: ys, hx, hy => by
    obtain ⟨h1, -⟩ := hx l1 (by simp)
    obtain ⟨h2, -⟩ := hy l2 (by simp)
    have hl := compare_lengths l1 l2 h1 h2
    simp only [cons_append, rdatacompareLabels]
    rw [if_neg (by omega), ndata_lower_cons, ndata_lower_cons, List.compare_cons_cons, hl]
    obtain hlt | heq | hgt := lt_trichotomy l1.length l2.length
    · exact ⟨.lt, by rw [if_pos hlt], by rw [compare_lt_iff_lt.2 hlt]; rfl, nofun⟩
    · rw [if_neg (by omega), if_neg (by omega), rdatacompareBytes_eq heq, compare_eq_iff_eq.2 heq,
        Ordering.eq_then, LexOrder.compare_append (by simpa using heq)]
      obtain ⟨o, ho, hcmp, hlen⟩ := rdatacompareLabels_append (x := x) (y := y) xs ys
        (fun l hl => hx l (by simp [hl])) (fun l hl => hy l (by simp [hl]))
      rw [hcmp, ho]
      cases compare l1.lower l2.lower with
      | lt => exact ⟨.lt, rfl, rfl, nofun⟩
      | gt => exact ⟨.gt, rfl, rfl, nofun⟩
      | eq => exact ⟨o, rfl, rfl, fun h => by simp [hlen h]⟩
    · exact ⟨.gt, by rw [if_neg (by omega), if_pos hgt], by rw [compare_gt_iff_gt.2 hgt]; rfl, nofun⟩

end Name

/-- **Name order.**  `dns_name_rdatacompare` is the order of the bytes `dns_name_digest` digests, whatever
follows them. -/
theorem AbsName.rdatacompare_digest (a b : AbsName) : ∃ o, a.name.rdatacompare b.name = .ok o ∧
    ∀ x y : Bytes, compare (a.name.lower.ndata ++ x) (b.name.lower.ndata ++ y) = o.then (compare x y) := by
  have ha : ∀ l ∈ a.name.labels.dropLast, l.length ≤ 63 ∧ l ≠ [] := fun l hl =>
    ⟨a.valid.label_le l (dropLast_subset _ hl), a.valid.inner_ne l hl⟩
  have hb : ∀ l ∈ b.name.labels.dropLast, l.length ≤ 63 ∧ l ≠ [] := fun l hl =>
    ⟨b.valid.label_le l (dropLast_subset _ hl), b.valid.inner_ne l hl⟩
  have ea : a.name = ⟨a.name.labels.dropLast ++ [[]]⟩ := congrArg Name.mk a.labels_eq
  have eb : b.name = ⟨b.name.labels.dropLast ++ [[]]⟩ := congrArg Name.mk b.labels_eq
  obtain ⟨o, ho, -, hlen⟩ := Name.rdatacompareLabels_append (x := []) (y := []) _ _ ha hb
  refine ⟨o, ?_, ?_⟩
  · have hcount : o = .eq → a.name.countlabels = b.name.countlabels := by
      intro h
      rw [ea, eb]
      simp [Name.countlabels, hlen h]
    have hpa := length_pos_iff.2 a.labels_ne_nil
    have hpb := length_pos_iff.2 b.labels_ne_nil
    rw [← a.labels_eq, ← b.labels_eq] at ho
    rw [Name.rdatacompare, require_true (by simp [Name.countlabels, hpa, a.absolute]), ok_then,
      require_true (by simp [Name.countlabels, hpb, b.absolute]), ok_then, ho, ok_then]
    cases o with
    | eq => simp [require_true, hcount]
    | lt => rfl
    | gt => rfl
  · intro x y
    obtain ⟨o', ho', hcmp, -⟩ := Name.rdatacompareLabels_append (x := x) (y := y) _ _ ha hb
    have : o' = o := by rw [ho] at ho'; exact (Except.ok.inj ho').symm
    rw [ea, eb, hcmp, this]

end Bind9
