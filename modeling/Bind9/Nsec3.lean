import Bind9.Base32
import Bind9.NsecBitmap
import Bind9.RdataStruct

/-! # What an NSEC3 record says about a name

`dns_nsec3_noexistnodata`.  The loop hashes the query name and its ancestors down to the zone and compares each hash with
the interval of the record.  The outputs are written on the way: `nearest`, `exists`, `data` and `optout` where a hash lies
in the interval, `closest` where an ancestor is the owner.  A later turn may find that the record is from the parent side
of a delegation and ignore it, and what was written before stays (`ignored_outputs`).

SHA-1 is a parameter. -/

namespace Bind9.Nsec3

open List hiding set

open Rdata NsecBitmap

def ignore : Result := .other 36

/-- `isc_sha1_update` on the bytes of a message and `isc_sha1_final`. -/
structure Sha1 where
  digest : Bytes → Bytes
  length_eq : ∀ bs, (digest bs).length = 20

/-- The rounds of `isc_iterated_hash`; there is one more than `iterations`. -/
def rounds (sha1 : Sha1) (salt : Bytes) : ℕ → Bytes → Bytes
  | 0, bs => sha1.digest (bs ++ salt)
  | n + 1, bs => rounds sha1 salt n (sha1.digest (bs ++ salt))

/-- `isc_iterated_hash`; the length that it returns is that of the list. -/
def iscIteratedHash (sha1 : Sha1) (hashalg iterations : ℕ) (salt bs : Bytes) : Bytes :=
  if hashalg ≠ 1 then [] else rounds sha1 salt iterations bs

def dnsNsec3Supportedhash (hash : ℕ) : Bool := hash = 1

/-- `dns_nsec3_typepresent`; its loop is that of `dns_nsec_typepresent`. -/
def dnsNsec3Typepresent (rdata : Bytes) (type : UInt16) : Exec Bool := do
  let nsec3 ← tostructNsec3 rdata
  typepresentLoop type.toNat nsec3.typebits

/-- `&&`. -/
def andThen (x y : Exec Bool) : Exec Bool := do
  if ← x then y else pure false

/-- `||`. -/
def orElse (x y : Exec Bool) : Exec Bool := do
  if ← x then pure true else y

/-- `!`. -/
def notThen (x : Exec Bool) : Exec Bool := do
  let b ← x
  pure (!b)

/-- The pointers that the caller passes; `none` is `NULL`.  `exists` and `data` are given together, and so are `setclosest`
and `closest`, `setnearest` and `nearest`. -/
structure Outputs where
  existsData : Option (Bool × Bool)
  optout : Option Bool
  unknown : Option Bool
  closest : Option (Bool × Name)
  nearest : Option (Bool × Name)
deriving DecidableEq

/-- What the loop works with: the record, its owner hash, the comparison of the ends of the interval, and the labels of
the zone. -/
structure Search where
  rdata : Bytes
  nsec3 : Nsec3Struct
  owner : Bytes
  scope : Ordering
  zlabels : ℕ

/-! ### Before the loop -/

/-- What the part before the loop comes to: a result, and whether `*unknown` is set, or the loop. -/
inductive Entry where
  | leave (result : Result) (zonename : Name) (unknown : Bool)
  | search (zonename : Name) (s : Search)

/-- `dns_nsec3_noexistnodata` up to the loop; `wanted` says that `exists` and `data` are given. -/
def entry (name nsec3name : Name) (nsec3set : List Bytes) (zonename : Name) (wanted : Bool) : Exec Entry :=
  match nsec3set with
  | [] => .ok (.leave .nomore zonename false)
  | rdata :: _ => do
    let nsec3 ← tostructNsec3 rdata
    if nsec3name.countlabels < 2 then pure (.leave ignore zonename false)
    else
      let zlabels := nsec3name.countlabels - 1
      let zone := nsec3name.splitTail zlabels
      if name.issubdomain zone = false then pure (.leave ignore zonename false)
      else
        let zonename := if zonename.countlabels = 0 ∨ zone.issubdomain zonename then zone else zonename
        if zone.equal zonename = false then pure (.leave ignore zonename false)
        else if wanted = false then pure (.leave .success zonename false)
        else if dnsNsec3Supportedhash nsec3.hash = false then pure (.leave ignore zonename true)
        else
          match Base32.base32hexDecoderegion (nsec3name.labels.headD []) ⟨[], 155⟩ with
          | .error (.result r) => pure (.leave r zonename false)
          | .error e => .error e
          | .ok buffer =>
            if buffer.used ≠ nsec3.nextLength then pure (.leave ignore zonename false)
            else do
              let scope ← memcmp buffer.data nsec3.next nsec3.nextLength
              pure (.search zonename ⟨rdata, nsec3, buffer.data, scope, zlabels⟩)

/-! ### The loop -/

section Loop

variable (sha1 : Sha1) (s : Search) (type : UInt16)

def Search.hash (qname : Name) : Bytes :=
  iscIteratedHash sha1 s.nsec3.hash s.nsec3.iterations s.nsec3.salt qname.ndata

/-- A CNAME answers for all types but CNAME, NXT, NSEC and KEY. -/
def cnameAnswers : Exec Bool :=
  if type = 5 ∨ type = 30 ∨ type = 47 ∨ type = 25 then .ok false else dnsNsec3Typepresent s.rdata 5

/-- The record is the owner of the query name and not from the wrong side of a zone cut. -/
def answerOwner (out : Outputs) : Exec (Result × Outputs) := do
  let cname ← cnameAnswers s type
  if cname then pure (ignore, out)
  else do
    let data ← dnsNsec3Typepresent s.rdata type
    pure (.success, { out with existsData := some (true, data) })

/-- The hash of the query name is the owner of the record.  DS is the type that is kept at the parent. -/
def firstMatch (out : Outputs) : Exec (Result × Outputs) := do
  let atparent : Bool := type = 43
  let ns ← dnsNsec3Typepresent s.rdata 2
  let soa ← dnsNsec3Typepresent s.rdata 6
  if ns && !soa then
    if !atparent then pure (ignore, out) else answerOwner s type out
  else if atparent && ns && soa then pure (ignore, out)
  else answerOwner s type out

/-- `NS` and no `SOA`. -/
def delegation : Exec Bool :=
  andThen (dnsNsec3Typepresent s.rdata 2) (notThen (dnsNsec3Typepresent s.rdata 6))

/-- The types at an ancestor that may be the closest encloser. -/
def encloserTypes : Exec Bool :=
  andThen (notThen (dnsNsec3Typepresent s.rdata 43))
    (andThen (notThen (dnsNsec3Typepresent s.rdata 39))
      (orElse (dnsNsec3Typepresent s.rdata 6) (notThen (dnsNsec3Typepresent s.rdata 2))))

/-- "Potential closest encloser". -/
def setClosest (qname : Name) (out : Outputs) : Exec Outputs :=
  match out.closest with
  | none => .ok out
  | some (_, closest) =>
    if closest.countlabels = 0 ∨ qname.issubdomain closest then do
      if ← encloserTypes s then pure { out with closest := some (true, qname) } else pure out
    else .ok out

/-- The hash of an ancestor is the owner of the record. -/
def superMatch (qname : Name) (answer : Result) (out : Outputs) : Exec (Result × Outputs) := do
  if ← delegation s then pure (ignore, out)
  else do
    let out ← setClosest s qname out
    pure (answer, out)

/-- Whether a hash lies in the interval of the record; `order` is its comparison with the owner. -/
def inside (order : Ordering) (hash : Bytes) : Exec Bool := do
  let below ← memcmp hash s.nsec3.next hash.length
  if s.scope = .lt then pure (order == .gt && below == .lt) else pure (order == .gt || below == .lt)

def setNearest (qname : Name) : Option (Bool × Name) → Option (Bool × Name)
  | none => none
  | some (set, nearest) =>
    if nearest.countlabels = 0 ∨ nearest.issubdomain qname then some (true, qname) else some (set, nearest)

/-- The outputs for a name whose hash lies in the interval. -/
def denied (qname : Name) (out : Outputs) : Outputs :=
  { out with
    nearest := setNearest qname out.nearest
    existsData := some (false, false)
    optout := out.optout.map (fun _ => decide (s.nsec3.flags % 2 = 1)) }

/-- The loop.  `qlabels` is the number of labels of `qname`. -/
def searchLoop : ℕ → Name → Bool → Result → Outputs → Exec (Result × Outputs)
  | 0, _, _, answer, out => .ok (answer, out)
  | q + 1, qname, first, answer, out =>
    if q + 1 < s.zlabels then .ok (answer, out)
    else if (s.hash sha1 qname).length ≠ s.nsec3.nextLength then .ok (ignore, out)
    else do
      let order ← memcmp (s.hash sha1 qname) s.owner (s.hash sha1 qname).length
      if order = .eq then
        if first then firstMatch s type out else superMatch s qname answer out
      else do
        let covered ← inside s order (s.hash sha1 qname)
        let next := if 0 < q then qname.splitTail q else qname
        if covered then searchLoop q next false .success (denied s qname out)
        else searchLoop q next false answer out

end Loop

/-- `dns_nsec3_noexistnodata`: the result, `zonename` and the other outputs. -/
def dnsNsec3Noexistnodata (sha1 : Sha1) (type : UInt16) (name nsec3name : Name) (nsec3set : List Bytes)
    (zonename : Name) (out : Outputs) : Exec (Result × Name × Outputs) := do
  match ← entry name nsec3name nsec3set zonename out.existsData.isSome with
  | .leave result zonename unknown =>
    pure (result, zonename, if unknown then { out with unknown := out.unknown.map (fun _ => true) } else out)
  | .search zonename s =>
    let (result, out) ← searchLoop sha1 s type name.lower.countlabels name.lower true ignore out
    pure (result, zonename, out)

/-! ### The names that the loop comes to -/

/-- The query name and its ancestors in the zone, as the loop visits them. -/
def visited (zlabels : ℕ) : ℕ → Name → List Name
  | 0, _ => []
  | q + 1, qname =>
    if q + 1 < zlabels then [] else qname :: visited zlabels q (if 0 < q then qname.splitTail q else qname)

section Walk

variable (sha1 : Sha1) (s : Search) (type : UInt16)

/-- The loop over a list of names. -/
def walk : List Name → Bool → Result → Outputs → Exec (Result × Outputs)
  | [], _, answer, out => .ok (answer, out)
  | qname :: names, first, answer, out =>
    if (s.hash sha1 qname).length ≠ s.nsec3.nextLength then .ok (ignore, out)
    else do
      let order ← memcmp (s.hash sha1 qname) s.owner (s.hash sha1 qname).length
      if order = .eq then
        if first then firstMatch s type out else superMatch s qname answer out
      else do
        let covered ← inside s order (s.hash sha1 qname)
        if covered then walk names false .success (denied s qname out) else walk names false answer out

theorem searchLoop_eq (q : ℕ) : ∀ (qname : Name) (first : Bool) (answer : Result) (out : Outputs),
    searchLoop sha1 s type q qname first answer out = walk sha1 s type (visited s.zlabels q qname) first answer out := by
  induction q with
  | zero => intro qname first answer out; rfl
  | succ q ih =>
    intro qname first answer out
    rw [searchLoop, visited]
    split
    · rfl
    · simp only [walk, ih]

/-- What the part before the loop has checked. -/
structure Search.Ready : Prop where
  hash : s.nsec3.hash = 1
  owner : s.owner.length = s.nsec3.nextLength
  next : s.nsec3.next.length = s.nsec3.nextLength
  scope : s.scope = compare s.owner s.nsec3.next

/-- Whether the hash of a name lies in the interval of the record. -/
def Search.covers (a : Name) : Bool :=
  if s.scope = .lt then compare (s.hash sha1 a) s.owner == .gt && compare (s.hash sha1 a) s.nsec3.next == .lt
  else compare (s.hash sha1 a) s.owner == .gt || compare (s.hash sha1 a) s.nsec3.next == .lt

/-- The answer and the outputs after names that are not the owner of the record. -/
def answerAfter (names : List Name) (answer : Result) : Result :=
  if names.any (s.covers sha1) then .success else answer

def outAfter (names : List Name) (out : Outputs) : Outputs :=
  names.foldl (fun out a => if s.covers sha1 a then denied s a out else out) out

variable {sha1 s}

theorem Search.Ready.hash_length (h : s.Ready) (a : Name) : (s.hash sha1 a).length = 20 := by
  have hrounds : ∀ (n : ℕ) (bs : Bytes), (rounds sha1 s.nsec3.salt n bs).length = 20 := by
    intro n
    induction n with
    | zero => intro bs; exact sha1.length_eq _
    | succ n ih => intro bs; exact ih _
  rw [Search.hash, iscIteratedHash, if_neg (not_not.2 h.hash), hrounds]

theorem memcmp_whole {a b : Bytes} (h : a.length = b.length) : memcmp a b a.length = .ok (compare a b) := by
  have hcmp := @memcmp_append a b [] [] a.length rfl h.symm
  rwa [append_nil, append_nil] at hcmp

variable (h : s.Ready) (h20 : s.nsec3.nextLength = 20)
include h h20

theorem walk_step {a : Name} (ha : s.hash sha1 a ≠ s.owner) (names : List Name) (first : Bool) (answer : Result)
    (out : Outputs) : walk sha1 s type (a :: names) first answer out =
      if s.covers sha1 a then walk sha1 s type names false .success (denied s a out)
      else walk sha1 s type names false answer out := by
  have hlen := @Search.Ready.hash_length sha1 s h a
  rw [walk, if_neg (not_not.2 (hlen.trans h20.symm)), memcmp_whole (hlen.trans (h.owner.trans h20).symm), ok_then,
    if_neg (fun he => ha (Std.LawfulEqOrd.eq_of_compare he)), inside, memcmp_whole (hlen.trans (h.next.trans h20).symm),
    ok_then, Search.covers]
  split
  · rfl
  · rfl

theorem walk_match {a : Name} (ha : s.hash sha1 a = s.owner) (names : List Name) (first : Bool) (answer : Result)
    (out : Outputs) : walk sha1 s type (a :: names) first answer out =
      if first then firstMatch s type out else superMatch s a answer out := by
  have hlen := @Search.Ready.hash_length sha1 s h a
  rw [walk, if_neg (not_not.2 (hlen.trans h20.symm)), memcmp_whole (hlen.trans (h.owner.trans h20).symm), ok_then, ha,
    Std.ReflOrd.compare_self]
  rfl

/-- The loop over names that are not the owner of the record. -/
theorem walk_append (pre rest : List Name) : ∀ (first : Bool) (answer : Result) (out : Outputs),
    (∀ b ∈ pre, s.hash sha1 b ≠ s.owner) → walk sha1 s type (pre ++ rest) first answer out =
      walk sha1 s type rest (first && pre.isEmpty) (answerAfter sha1 s pre answer) (outAfter sha1 s pre out) := by
  induction pre with
  | nil => intro first answer out _; simp [answerAfter, outAfter]
  | cons b pre ih =>
    intro first answer out hpre
    have ih' := fun answer out => ih false answer out (fun c hc => hpre c (mem_cons_of_mem _ hc))
    rw [cons_append, walk_step type h h20 (hpre b (by simp))]
    by_cases hb : s.covers sha1 b = true
    · rw [if_pos hb, ih']
      simp [answerAfter, outAfter, hb]
    · rw [if_neg hb, ih']
      simp [answerAfter, outAfter, hb]

end Walk

/-! ### Before the loop -/

theorem tostructNsec3_next {r : Bytes} {nsec3 : Nsec3Struct} (h : tostructNsec3 r = .ok nsec3) :
    nsec3.next.length = nsec3.nextLength := by
  obtain ⟨-, -, h⟩ := bind_eq_ok h
  obtain ⟨⟨hash, r1⟩, -, h⟩ := bind_eq_ok h
  obtain ⟨⟨flags, r2⟩, -, h⟩ := bind_eq_ok h
  obtain ⟨⟨iterations, r3⟩, -, h⟩ := bind_eq_ok h
  obtain ⟨⟨saltLength, r4⟩, -, h⟩ := bind_eq_ok h
  obtain ⟨⟨salt, r5⟩, -, h⟩ := bind_eq_ok h
  obtain ⟨⟨nextLength, r6⟩, -, h⟩ := bind_eq_ok h
  obtain ⟨⟨next, r7⟩, hnext, h⟩ := bind_eq_ok h
  cases h
  obtain ⟨bs, hbs, hnext⟩ := bind_eq_ok hnext
  obtain ⟨r', -, hnext⟩ := bind_eq_ok hnext
  cases hnext
  unfold bytesAt at hbs
  split at hbs
  · next hle =>
      cases hbs
      exact length_take_of_le hle
  · cases hbs

/-- The loop is reached for the first record of the set, with what the checks before it found. -/
structure Reaches (name nsec3name : Name) (nsec3set : List Bytes) (s : Search) : Prop where
  head : nsec3set.head? = some s.rdata
  nsec3 : tostructNsec3 s.rdata = .ok s.nsec3
  ready : s.Ready
  labels : 2 ≤ nsec3name.countlabels ∧ s.zlabels = nsec3name.countlabels - 1
  inZone : name.issubdomain (nsec3name.splitTail s.zlabels) = true
  owner : ∃ buffer, Base32.base32hexDecoderegion (nsec3name.labels.headD []) ⟨[], 155⟩ = .ok buffer ∧ buffer.data = s.owner

theorem entry_search {name nsec3name zonename zonename' : Name} {nsec3set : List Bytes} {wanted : Bool} {s : Search}
    (h : entry name nsec3name nsec3set zonename wanted = .ok (.search zonename' s)) : Reaches name nsec3name nsec3set s := by
  unfold entry at h
  split at h
  · cases h
  next rdata rest =>
    obtain ⟨nsec3, hnsec3, h⟩ := bind_eq_ok h
    split at h
    · cases h
    next hlabels =>
      simp only at h
      split at h
      · cases h
      next hzone =>
        generalize (if zonename.countlabels = 0 ∨
          (nsec3name.splitTail (nsec3name.countlabels - 1)).issubdomain zonename = true then
            nsec3name.splitTail (nsec3name.countlabels - 1) else zonename) = z at h
        split at h
        · cases h
        split at h
        · cases h
        split at h
        · cases h
        next hhash =>
          split at h
          · cases h
          · cases h
          · next buffer hbuffer =>
              split at h
              · cases h
              next hused =>
                obtain ⟨scope, hscope, h⟩ := bind_eq_ok h
                cases h
                have hnext := tostructNsec3_next hnsec3
                have hlen : buffer.data.length = nsec3.nextLength := not_not.1 hused
                rw [← hlen, memcmp_whole (hlen.trans hnext.symm)] at hscope
                exact {
                  head := rfl
                  nsec3 := hnsec3
                  ready := ⟨by simpa [dnsNsec3Supportedhash] using hhash, hlen, hnext, (Except.ok.inj hscope).symm⟩
                  labels := ⟨by omega, rfl⟩
                  inZone := by simpa using hzone
                  owner := ⟨buffer, hbuffer, rfl⟩ }

/-! ### Records that are ignored -/

section Ignored

variable (sha1 : Sha1) (s : Search)

/-- The names up to the first one that the record belongs to. -/
def FirstOwner (names pre : List Name) (a : Name) : Prop :=
  (∃ post, names = pre ++ a :: post) ∧ (∀ b ∈ pre, s.hash sha1 b ≠ s.owner) ∧ s.hash sha1 a = s.owner

/-- An ancestor of the query name is the owner of the record, and it is not a delegation. -/
def SuperOwner (names : List Name) : Prop :=
  ∃ pre a, FirstOwner sha1 s names pre a ∧ pre ≠ [] ∧ delegation s ≠ .ok true

/-- An ancestor of the query name is the owner of the record, it is a delegation, and the hash of a name below it lies in the
interval of the record. -/
def DeniedBelowDelegation (names : List Name) : Prop :=
  ∃ pre a, FirstOwner sha1 s names pre a ∧ delegation s = .ok true ∧ ∃ b ∈ pre, s.covers sha1 b = true

variable {sha1 s}

theorem firstOwner_or (names : List Name) :
    (∀ b ∈ names, s.hash sha1 b ≠ s.owner) ∨ ∃ pre a, FirstOwner sha1 s names pre a := by
  induction names with
  | nil => exact .inl (by simp)
  | cons b names ih =>
    by_cases hb : s.hash sha1 b = s.owner
    · exact .inr ⟨[], b, ⟨names, rfl⟩, by simp, hb⟩
    obtain hnone | ⟨pre, a, ⟨post, hsplit⟩, hpre, ha⟩ := ih
    · exact .inl (forall_mem_cons.2 ⟨hb, hnone⟩)
    · exact .inr ⟨b :: pre, a, ⟨post, by rw [hsplit]; rfl⟩, forall_mem_cons.2 ⟨hb, hpre⟩, ha⟩

variable {names : List Name}

theorem outAfter_of_not_covers (h : ∀ b ∈ names, s.covers sha1 b ≠ true) (out : Outputs) :
    outAfter sha1 s names out = out := by
  induction names with
  | nil => rfl
  | cons b names ih =>
    rw [outAfter, foldl_cons, if_neg (h b (by simp))]
    exact ih (fun c hc => h c (mem_cons_of_mem _ hc))

theorem outAfter_existsData (h : ∃ b ∈ names, s.covers sha1 b = true) : ∀ out : Outputs,
    (outAfter sha1 s names out).existsData = some (false, false) := by
  have hkeep : ∀ (names : List Name) (out : Outputs), out.existsData = some (false, false) →
      (outAfter sha1 s names out).existsData = some (false, false) := by
    intro names
    induction names with
    | nil => exact fun out ho => ho
    | cons b names ih =>
      intro out ho
      rw [outAfter, foldl_cons]
      apply ih
      split
      · rfl
      · exact ho
  induction names with
  | nil => simp at h
  | cons b names ih =>
    intro out
    rw [outAfter, foldl_cons]
    by_cases hb : s.covers sha1 b = true
    · rw [if_pos hb]
      exact hkeep names _ rfl
    rw [if_neg hb]
    obtain ⟨c, hc, hcov⟩ := h
    obtain rfl | hc := mem_cons.1 hc
    · exact absurd hcov hb
    · exact ih ⟨c, hc, hcov⟩ out

variable {out out' : Outputs}

theorem answerOwner_ignore {type : UInt16} (h : answerOwner s type out = .ok (ignore, out')) : out' = out := by
  obtain ⟨cname, -, h⟩ := bind_eq_ok h
  cases cname with
  | true =>
    cases h
    rfl
  | false =>
    obtain ⟨data, -, h⟩ := bind_eq_ok h
    cases h

theorem firstMatch_ignore {type : UInt16} (h : firstMatch s type out = .ok (ignore, out')) : out' = out := by
  obtain ⟨ns, -, h⟩ := bind_eq_ok h
  obtain ⟨soa, -, h⟩ := bind_eq_ok h
  split at h
  · split at h
    · cases h
      rfl
    · exact answerOwner_ignore h
  split at h
  · cases h
    rfl
  · exact answerOwner_ignore h

/-- The loop of a record that is ignored leaves the outputs alone, unless a name below a delegation is denied. -/
theorem walk_ignore {type : UInt16} (hs : s.Ready) (hsuper : ¬SuperOwner sha1 s names)
    (hdenied : ¬DeniedBelowDelegation sha1 s names)
    (h : walk sha1 s type names true ignore out = .ok (ignore, out')) : out' = out := by
  by_cases h20 : s.nsec3.nextLength = 20
  · obtain hnone | ⟨pre, a, ⟨post, rfl⟩, hpre, ha⟩ := @firstOwner_or sha1 s names
    · have hrun := walk_append type hs h20 names [] true ignore out hnone
      rw [append_nil, walk] at hrun
      rw [hrun] at h
      obtain ⟨hanswer, rfl⟩ := Prod.mk.inj (Except.ok.inj h)
      apply outAfter_of_not_covers
      intro b hb hcov
      rw [answerAfter, if_pos (any_eq_true.2 ⟨b, hb, hcov⟩)] at hanswer
      cases hanswer
    · rw [walk_append type hs h20 pre (a :: post) true ignore out hpre, walk_match type hs h20 ha] at h
      cases pre with
      | nil => exact firstMatch_ignore h
      | cons b pre =>
        have hfirst : FirstOwner sha1 s (b :: pre ++ a :: post) (b :: pre) a := ⟨⟨post, rfl⟩, hpre, ha⟩
        have hdel : delegation s = .ok true := by
          by_contra hdel
          exact hsuper ⟨b :: pre, a, hfirst, by simp, hdel⟩
        simp only [isEmpty_cons, Bool.and_false, Bool.false_eq_true, if_false, superMatch, hdel, ok_then, if_true] at h
        cases h
        exact outAfter_of_not_covers (fun c hc hcov => hdenied ⟨b :: pre, a, hfirst, hdel, c, hc, hcov⟩) out
  cases names with
  | nil =>
    cases h
    rfl
  | cons b names =>
    rw [walk, if_pos (by rw [hs.hash_length]; exact fun he => h20 he.symm)] at h
    cases h
    rfl

theorem walk_denied {type : UInt16} (hs : s.Ready) {names : List Name} (h : DeniedBelowDelegation sha1 s names)
    (out : Outputs) : ∃ out', walk sha1 s type names true ignore out = .ok (ignore, out') ∧
      out'.existsData = some (false, false) := by
  obtain ⟨pre, a, ⟨⟨post, rfl⟩, hpre, ha⟩, hdel, hcov⟩ := h
  have h20 : s.nsec3.nextLength = 20 := by rw [← hs.owner, ← ha, hs.hash_length]
  refine ⟨outAfter sha1 s pre out, ?_, outAfter_existsData hcov out⟩
  rw [walk_append type hs h20 pre (a :: post) true ignore out hpre, walk_match type hs h20 ha]
  cases pre with
  | nil => simp at hcov
  | cons b pre =>
    simp only [isEmpty_cons, Bool.and_false, Bool.false_eq_true, if_false, superMatch, hdel, ok_then, if_true]
    rfl

end Ignored

/-- The query name and its ancestors in the zone of the record. -/
def Search.names (s : Search) (name : Name) : List Name := visited s.zlabels name.lower.countlabels name.lower

/-- The outputs that a validator looks at: all but `unknown`. -/
def Kept (out out' : Outputs) : Prop := { out' with unknown := out.unknown } = out

/-- **Ignored records.**  A record that is ignored, and whose owner is no super-domain of the name apart from delegations,
leaves all outputs as they were, whatever these are, iff it is not the record of a delegation above the name with a name
below it in its interval. -/
theorem ignored_outputs (sha1 : Sha1) (type : UInt16) (name nsec3name : Name) (nsec3set : List Bytes)
    (zonename : Name) : (∀ out zonename' out', out.existsData.isSome = true →
      dnsNsec3Noexistnodata sha1 type name nsec3name nsec3set zonename out = .ok (ignore, zonename', out') →
      (∀ z s, entry name nsec3name nsec3set zonename true = .ok (.search z s) → ¬SuperOwner sha1 s (s.names name)) →
      Kept out out') ↔ ∀ z s, entry name nsec3name nsec3set zonename true = .ok (.search z s) →
      ¬DeniedBelowDelegation sha1 s (s.names name) := by
  constructor
  · intro h z s hentry hdenied
    have hs := (entry_search hentry).ready
    let out : Outputs := ⟨some (true, true), none, none, none, none⟩
    obtain ⟨out', hrun, hfalse⟩ := @walk_denied sha1 s type hs (s.names name) hdenied out
    have hcall : dnsNsec3Noexistnodata sha1 type name nsec3name nsec3set zonename out = .ok (ignore, z, out') := by
      rw [dnsNsec3Noexistnodata, show out.existsData.isSome = true from rfl, hentry, ok_then]
      simp only
      rw [searchLoop_eq, show visited s.zlabels name.lower.countlabels name.lower = s.names name from rfl, hrun]
      rfl
    have hkept := h out z out' rfl hcall (fun z' s' hentry' hsuper => by
      rw [hentry] at hentry'
      cases hentry'
      obtain ⟨-, -, -, hdel, -⟩ := hdenied
      obtain ⟨-, -, -, -, hnot⟩ := hsuper
      exact hnot hdel)
    have hdata := congrArg Outputs.existsData hkept
    rw [hfalse] at hdata
    cases hdata
  · intro h out zonename' out' hsome hrun hsuper
    rw [dnsNsec3Noexistnodata, hsome] at hrun
    obtain ⟨e, hentry, hrun⟩ := bind_eq_ok hrun
    cases e with
    | leave result z unknown =>
      cases hrun
      cases unknown with
      | true => rfl
      | false => rfl
    | search z s =>
      obtain ⟨⟨result, out1⟩, hloop, hrun⟩ := bind_eq_ok hrun
      cases hrun
      rw [searchLoop_eq] at hloop
      have hs := (entry_search hentry).ready
      rw [walk_ignore hs (hsuper _ s hentry) (h _ s hentry) hloop]
      rfl

/-! ### A name below a delegation -/

/-- SHA-1 of the wire form of `a.b.` and of `b.`; other messages are not hashed here. -/
def sampleSha1 : Sha1 where
  digest bs :=
    if bs = [1, 97, 1, 98, 0] then
      [184, 178, 72, 179, 174, 9, 112, 178, 127, 148, 36, 108, 139, 103, 4, 199, 159, 34, 224, 232]
    else if bs = [1, 98, 0] then
      [28, 82, 57, 64, 96, 251, 0, 138, 75, 236, 141, 219, 172, 108, 198, 79, 115, 94, 31, 172]
    else replicate 20 0
  length_eq := by
    intro bs
    split
    · rfl
    split
    · rfl
    · rfl

/-- The owner of the NSEC3 record of `b.`. -/
def sampleOwner : Name :=
  ⟨[['3', 'H', '9', '3', 'I', 'G', '3', '0', 'V', 'C', '0', '8', 'K', 'I', 'V', 'C', 'H', 'N', 'D', 'Q', 'O', 'R', '6', '6',
    '9', 'T', 'P', 'L', 'S', '7', 'T', 'C'].map (fun c => UInt8.ofNat c.toNat), []]⟩

/-- Its rdata: the next hash is the greatest one, the only type is NS. -/
def sampleRdata : Bytes := [1, 0, 0, 0, 0, 20] ++ (replicate 20 255 ++ [0, 1, 0x20])

def sampleSearch : Search where
  rdata := sampleRdata
  nsec3 := ⟨1, 0, 0, 0, [], 20, replicate 20 255, [0, 1, 0x20]⟩
  owner := [28, 82, 57, 64, 96, 251, 0, 138, 75, 236, 141, 219, 172, 108, 198, 79, 115, 94, 31, 172]
  scope := .lt
  zlabels := 1

theorem sample_entry : entry ⟨[[97], [98], []]⟩ sampleOwner [sampleRdata] ⟨[]⟩ true = .ok (.search ⟨[[]]⟩ sampleSearch) := by
  rfl

theorem sample_delegation : delegation sampleSearch = .ok true := by
  have hstruct : tostructNsec3 sampleRdata = .ok sampleSearch.nsec3 := rfl
  have hbits : sampleSearch.nsec3.typebits = [0, 1, 0x20] := rfl
  have hns : dnsNsec3Typepresent sampleRdata 2 = .ok true := by
    rw [dnsNsec3Typepresent, hstruct, ok_then, hbits, typepresentLoop]
    simp [dnsNsecIsset]
    decide
  have hsoa : dnsNsec3Typepresent sampleRdata 6 = .ok false := by
    rw [dnsNsec3Typepresent, hstruct, ok_then, hbits, typepresentLoop]
    simp [dnsNsecIsset]
    decide
  rw [delegation, show sampleSearch.rdata = sampleRdata from rfl, hns, hsoa]
  rfl

theorem accepted_sample (validate : Bytes → ℤ) : Accepted validate .nsec3 sampleRdata := by
  refine ⟨⟨sampleRdata, .any, false, validate⟩, ⟨0, ⟨[], 100⟩⟩, ⟨29, ⟨sampleRdata, 100⟩⟩, rfl, ?_⟩
  have hbits : typemapLoop (.result .formerr) true 0 [0, 1, 0x20] = .ok false := by simp [typemapLoop]
  simp [rdataFromwire, fromwireSwitch, fromwireNsec3, WireEnv.activeregion, sampleRdata, consume, require, ok_then, hbits]
  rfl

/-- `a.b.` and the NSEC3 record of the delegation `b.`: it is ignored, and afterwards `exists` and `data` are false. -/
theorem ignored_outputs_written : Accepted (fun _ => 0) .nsec3 sampleRdata ∧
    ∃ out', dnsNsec3Noexistnodata sampleSha1 1 ⟨[[97], [98], []]⟩ sampleOwner [sampleRdata] ⟨[]⟩
        ⟨some (true, true), none, none, none, none⟩ = .ok (ignore, ⟨[[]]⟩, out') ∧ out'.existsData = some (false, false) ∧
      ∀ z s, entry ⟨[[97], [98], []]⟩ sampleOwner [sampleRdata] ⟨[]⟩ true = .ok (.search z s) →
        ¬SuperOwner sampleSha1 s (s.names ⟨[[97], [98], []]⟩) := by
  have hs := (entry_search sample_entry).ready
  have hdenied : DeniedBelowDelegation sampleSha1 sampleSearch (sampleSearch.names ⟨[[97], [98], []]⟩) := by
    refine ⟨[⟨[[97], [98], []]⟩], ⟨[[98], []]⟩, ⟨⟨[⟨[[]]⟩], rfl⟩, ?_, rfl⟩, sample_delegation, ⟨_, mem_cons_self .., rfl⟩⟩
    rw [forall_mem_singleton]
    decide
  obtain ⟨out', hrun, hfalse⟩ := @walk_denied sampleSha1 sampleSearch 1 hs _ hdenied ⟨some (true, true), none, none, none, none⟩
  refine ⟨accepted_sample _, out', ?_, hfalse, ?_⟩
  · rw [dnsNsec3Noexistnodata, Option.isSome_some, sample_entry, ok_then]
    simp only
    rw [searchLoop_eq, show visited sampleSearch.zlabels _ _ = sampleSearch.names ⟨[[97], [98], []]⟩ from rfl, hrun]
    rfl
  · rintro z s hentry ⟨-, -, -, -, hnot⟩
    rw [sample_entry] at hentry
    cases hentry
    exact hnot sample_delegation

end Bind9.Nsec3
