import Mathlib.Data.List.Basic
import Mathlib.Data.List.Forall2
import Mathlib.Tactic

/-! # Domain names

The part of `lib/dns/name.c` that the other modules use.  A `dns_name_t` is a byte string
`ndata` cut into labels by an offsets table; here it is the list of its labels, and `ndata`
is computed from it (`Name.ndata`).  A label of length zero is the root label; a name is
absolute iff its last label is the root label.

* `maptolower` is the table of the source: it moves the 26 ASCII capitals only.
* `Name.equal` and `Name.caseequal` follow `dns_name_equal` and `dns_name_caseequal`;
  `equal_iff` and `caseequal_iff` say what they decide.
* `Name.hash` is `dns_name_hash`: the first sixteen bytes, in 32-bit arithmetic. -/

namespace Bind9

open List

/-- The result codes of the modelled functions. -/
inductive Result where
  | success
  | nomemory
  | nospace
  | exists
  | notfound
  | unexpectedend
  | quota
  | nomore
  | partialmatch
  | neworigin
  | badlabeltype
  | emptylabel
  | labeltoolong
  | badescape
  | disallowed
  | badpointer
  | nametoolong
  | formerr
  | expectedtsig
  | unexpectedtsig
  | expectedresponse
  | tsigverifyfailure
  | tsigerrorset
  | clockskew
  | notverifiedyet
  | noidentity
  | siginvalid
  | sigfuture
  | sigexpired
  | keyunauthorized
  | verifyfailure
  | unsupportedalg
  | unchanged
  | notexact
  | nxrrset
  | singleton
  | cnameandother
  | notimplemented
  | range
  | syntaxerr
  | extradata
  | badbitmap
  | metatype
  | unexpectedtoken
  | unexpected
  | failure
  | uptodate
  | invalidns
  | invalidnsec3
  | notzonetop
  | notauthoritative
  | unexpectedid
  | refused
  | notzone
  | fromwildcard
  | badzone
  | invalidtime
  | eof
  | ioerror
  | other (code : ℕ)
deriving DecidableEq, Repr

def maptolower (c : UInt8) : UInt8 := if 65 ≤ c ∧ c ≤ 90 then c + 32 else c

/-- `toupper` in the C locale. -/
def toupper (c : UInt8) : UInt8 := if 97 ≤ c ∧ c ≤ 122 then c - 32 else c

abbrev Bytes := List UInt8

abbrev Label := Bytes

namespace Label

/-- The label as it stands in `ndata`: the length byte, then the bytes. -/
def wire (l : Label) : Bytes := UInt8.ofNat l.length :: l

/-- The label with every capital turned into the small letter. -/
def lower (l : Label) : Label := l.map maptolower

@[simp] theorem wire_length (l : Label) : (wire l).length = l.length + 1 := rfl

@[simp] theorem lower_length (l : Label) : (lower l).length = l.length := by simp [lower]

end Label

/-- A `dns_name_t`, as the list of its labels. -/
structure Name where
  labels : List Label
deriving DecidableEq, Repr

namespace Name

variable (n : Name)

def ndata : Bytes := n.labels.flatMap Label.wire

def length : ℕ := n.ndata.length

def countlabels : ℕ := n.labels.length

def isabsolute : Bool := n.labels.getLast? == some []

/-- `dns_name_getlabelsequence`: the `k` labels from label `first` on. -/
def getlabelsequence (first k : ℕ) : Name := ⟨(n.labels.drop first).take k⟩

/-- The offsets table of labels that start at byte `o`. -/
def offsetsFrom : ℕ → List Label → List ℕ
  | _, [] => []
  | o, l :: ls => o :: offsetsFrom (o + l.length + 1) ls

def offsets : List ℕ := offsetsFrom 0 n.labels

/-- All labels in small letters. -/
def lower : Name := ⟨n.labels.map Label.lower⟩

/-- What every name built by `name.c` satisfies: labels of at most 63 bytes, no empty label
before the last one, at most 255 bytes in all. -/
structure Valid : Prop where
  label_le : ∀ l ∈ n.labels, l.length ≤ 63
  inner_ne : ∀ l ∈ n.labels.dropLast, l ≠ []
  length_le : n.length ≤ 255

instance (n : Name) : Decidable n.Valid :=
  decidable_of_iff ((∀ l ∈ n.labels, l.length ≤ 63) ∧ (∀ l ∈ n.labels.dropLast, l ≠ []) ∧
    n.length ≤ 255) ⟨fun h => ⟨h.1, h.2.1, h.2.2⟩, fun h => ⟨h.1, h.2, h.3⟩⟩

theorem length_cons (l : Label) (ls : List Label) : length ⟨l :: ls⟩ = l.length + 1 + length ⟨ls⟩ := by
  simp [length, ndata]

theorem length_append (xs ys : List Label) : length ⟨xs ++ ys⟩ = length ⟨xs⟩ + length ⟨ys⟩ := by
  simp [length, ndata]

/-! ### Comparison -/

/-- The inner loop of `dns_name_equal` on one pair of labels. -/
def equalBytes : Label → Label → Bool
  | c1 :: l1, c2 :: l2 => if maptolower c1 ≠ maptolower c2 then false else equalBytes l1 l2
  | _, _ => true

/-- The outer loop of `dns_name_equal`. -/
def equalLabels : List Label → List Label → Bool
  | l1 :: t1, l2 :: t2 =>
    if l1.length ≠ l2.length then false
    else if equalBytes l1 l2 then equalLabels t1 t2 else false
  | _, _ => true

def equal (a b : Name) : Bool :=
  if a.length ≠ b.length then false
  else if a.countlabels ≠ b.countlabels then false
  else equalLabels a.labels b.labels

/-- `dns_name_caseequal`: same length, same bytes. -/
def caseequal (a b : Name) : Bool :=
  if a.length ≠ b.length then false else a.ndata == b.ndata

theorem equalBytes_iff : ∀ (l1 l2 : Label), l1.length = l2.length →
    (equalBytes l1 l2 = true ↔ l1.lower = l2.lower)
  | [], [], _ => by simp [equalBytes, Label.lower]
  | c1 :: l1, c2 :: l2, h => by
    have ih := equalBytes_iff l1 l2 (by simpa using h)
    unfold equalBytes
    by_cases hc : maptolower c1 = maptolower c2
    · simp [hc, ih, Label.lower]
    · simp [hc, Label.lower]

theorem equalLabels_iff : ∀ (xs ys : List Label), xs.length = ys.length →
    (equalLabels xs ys = true ↔ xs.map Label.lower = ys.map Label.lower)
  | [], [], _ => by simp [equalLabels]
  | l1 :: t1, l2 :: t2, h => by
    have ih := equalLabels_iff t1 t2 (by simpa using h)
    unfold equalLabels
    by_cases hl : l1.length = l2.length
    · simp only [hl, ne_eq, not_true_eq_false, if_false, map_cons, cons.injEq]
      by_cases hb : equalBytes l1 l2 = true
      · simp [hb, ih, (equalBytes_iff l1 l2 hl).1 hb]
      · simp [hb, mt (equalBytes_iff l1 l2 hl).2 hb]
    · have hne : l1.lower ≠ l2.lower := fun he => hl (by simpa using congrArg List.length he)
      simp [hl, hne]

theorem length_lower : n.lower.length = n.length := by
  obtain ⟨ls⟩ := n
  simp only [lower, length, ndata, flatMap_map, length_flatMap, Label.wire_length,
    Label.lower_length]

theorem offsetsFrom_map_lower : ∀ (ls : List Label) (o : ℕ),
    offsetsFrom o (ls.map Label.lower) = offsetsFrom o ls
  | [], _ => rfl
  | l :: ls, o => by simp [offsetsFrom, offsetsFrom_map_lower ls]
theorem maptolower_idem (c : UInt8) : maptolower (maptolower c) = maptolower c := by
  unfold maptolower
  by_cases h : 65 ≤ c ∧ c ≤ 90
  · rw [if_pos h, if_neg]
    rintro ⟨-, h'⟩
    simp only [UInt8.le_iff_toNat_le, UInt8.toNat_add, UInt8.toNat_ofNat] at h h'
    omega
  · rw [if_neg h, if_neg h]

theorem lower_lower : n.lower.lower = n.lower := by
  have h : Label.lower ∘ Label.lower = Label.lower := by
    funext l
    simp [Label.lower, Function.comp_def, maptolower_idem]
  simp [lower, h]

theorem equal_iff (a b : Name) : a.equal b = true ↔ a.lower = b.lower := by
  unfold equal
  by_cases hlen : a.length = b.length
  · by_cases hc : a.countlabels = b.countlabels
    · simp only [hlen, hc, ne_eq, not_true_eq_false, if_false]
      rw [equalLabels_iff _ _ hc]
      simp [lower]
    · have hne : a.lower ≠ b.lower := fun he => hc (by
        have := congrArg countlabels he
        simpa [lower, countlabels] using this)
      simp [hlen, hc, hne]
  have hne : a.lower ≠ b.lower := fun he => hlen (by
    rw [← length_lower a, ← length_lower b, he])
  simp [hlen, hne]

theorem wire_append_inj {l1 l2 : Label} {r1 r2 : Bytes} (h1 : l1.length ≤ 63)
    (h2 : l2.length ≤ 63) (h : l1.wire ++ r1 = l2.wire ++ r2) : l1 = l2 ∧ r1 = r2 := by
  simp only [Label.wire, cons_append, cons.injEq] at h
  have hl : l1.length = l2.length := by
    have := congrArg UInt8.toNat h.1
    simp only [UInt8.toNat_ofNat'] at this
    omega
  exact append_inj h.2 hl

theorem ndata_inj : ∀ {xs ys : List Label}, (∀ l ∈ xs, l.length ≤ 63) → (∀ l ∈ ys, l.length ≤ 63) →
    ndata ⟨xs⟩ = ndata ⟨ys⟩ → xs = ys
  | [], [], _, _, _ => rfl
  | [], _ :: _, _, _, h => by simp [ndata, Label.wire] at h
  | _ :: _, [], _, _, h => by simp [ndata, Label.wire] at h
  | x :: xs, y :: ys, hx, hy, h => by
    simp only [ndata, flatMap_cons] at h
    obtain ⟨rfl, hr⟩ := wire_append_inj (hx x (by simp)) (hy y (by simp)) h
    rw [ndata_inj (fun l hl => hx l (by simp [hl])) (fun l hl => hy l (by simp [hl])) hr]

theorem caseequal_iff {a b : Name} (ha : ∀ l ∈ a.labels, l.length ≤ 63)
    (hb : ∀ l ∈ b.labels, l.length ≤ 63) : a.caseequal b = true ↔ a = b := by
  unfold caseequal
  constructor
  · intro h
    split_ifs at h with hl
    obtain ⟨xs⟩ := a
    obtain ⟨ys⟩ := b
    exact congrArg Name.mk (ndata_inj ha hb (by simpa using h))
  · rintro rfl
    simp

/-! ### Hashing -/

/-- `name_hash` with `case_sensitive` false: the Tcl-like hash of the first sixteen bytes. -/
def nameHash (s : Bytes) : UInt32 :=
  (s.take 16).foldl (fun h c => h + ((h <<< 3) + (maptolower c).toUInt32)) 0

/-- `dns_name_hash(name, ISC_FALSE)`. -/
def hash : ℕ := if n.countlabels = 0 then 0 else (nameHash n.ndata).toNat

end Name

/-- A valid absolute name. -/
structure AbsName where
  name : Name
  valid : name.Valid
  absolute : name.isabsolute = true
deriving DecidableEq

namespace AbsName

theorem labels_ne_nil (n : AbsName) : n.name.labels ≠ [] := by
  have h := n.absolute
  unfold Name.isabsolute at h
  intro he
  simp [he] at h

theorem labels_eq (n : AbsName) : n.name.labels = n.name.labels.dropLast ++ [[]] := by
  have h := n.absolute
  simp only [Name.isabsolute, beq_iff_eq] at h
  exact (dropLast_append_getLast? [] (by simpa using h)).symm

end AbsName

end Bind9
