import Bind9.Lib.CyclicOrder
import Bind9.NameTree
import Bind9.Nsec3

/-! # What a chain of NSEC3 records proves

A zone with a complete NSEC3 chain: one record for each owner and empty non-terminal, in the order of their hashes, each
with the next hash of the ring.  `nsec3_denial` says that whatever `dns_nsec3_noexistnodata` concludes from a record of
the chain is so. -/

namespace Bind9.Nsec3

open List
open Bool

open Rdata NsecBitmap CyclicOrder

/-- A zone that is signed with NSEC3: its apex, the owners and empty non-terminals in lower case, the types in their
bitmaps, and the parameters of the hash. -/
structure SignedZone where
  apex : Name
  names : List Name
  types : Name → UInt16 → Bool
  iterations : ℕ
  salt : Bytes

namespace SignedZone

variable (sha1 : Sha1) (z : SignedZone)

def hashOf (n : Name) : Bytes := iscIteratedHash sha1 1 z.iterations z.salt n.ndata

/-- The names are closed: with a name, the names above it up to the apex are owners or empty non-terminals. -/
def Closed : Prop :=
  ∀ n ∈ z.names, ∀ a : Name, a.labels <:+ n.labels → z.apex.countlabels ≤ a.countlabels → a ∈ z.names

/-- NS without SOA. -/
def IsDelegation (n : Name) : Prop := z.types n 2 = true ∧ z.types n 6 = false

/-- A record of the chain: `pre ++ n :: post` are the names of the zone in the order of their hashes, the first label of the
owner stands for the hash of `n`, and the record has the next hash of the ring and the types of `n`. -/
structure Record (nsec3name : Name) (rdata : Bytes) (n : Name) : Prop where
  ring : ∃ pre post, z.names = pre ++ n :: post ∧ Increasing (z.names.map (z.hashOf sha1)) ∧
    ∃ nsec3, tostructNsec3 rdata = .ok nsec3 ∧ nsec3.hash = 1 ∧ nsec3.iterations = z.iterations ∧ nsec3.salt = z.salt ∧
      nsec3.next = CyclicOrder.next (pre.map (z.hashOf sha1)) (z.hashOf sha1 n) (post.map (z.hashOf sha1)) ∧
      ∀ t : UInt16, typepresentLoop t.toNat nsec3.typebits = .ok (z.types n t)
  owner : ∃ label labels buffer, nsec3name = ⟨label :: labels⟩ ∧ labels ≠ [] ∧ Name.lower ⟨labels⟩ = z.apex.lower ∧
    Base32.base32hexDecoderegion label ⟨[], 155⟩ = .ok buffer ∧ buffer.data = z.hashOf sha1 n

end SignedZone

/-! ### The names that the loop comes to -/

theorem splitTail_labels (n : Name) (k : ℕ) : (n.splitTail k).labels = (n.labels.drop (n.countlabels - k)).take k := rfl

theorem visited_suffix (zlabels : ℕ) : ∀ (q : ℕ) (n : Name), n.countlabels = q →
    (∀ a ∈ visited zlabels q n, a.labels <:+ n.labels ∧ zlabels ≤ a.countlabels) ∧
      ∀ a ∈ (visited zlabels q n).tail, a.countlabels < q := by
  intro q
  induction q with
  | zero =>
    intro n _
    simp [visited]
  | succ q ih =>
    intro n hn
    rw [visited]
    split
    · simp
    next hz =>
      by_cases hq : 0 < q
      · rw [if_pos hq]
        have hlen : (n.splitTail q).countlabels = q := by
          rw [Name.countlabels] at hn ⊢
          rw [splitTail_labels, length_take, length_drop, Name.countlabels]
          omega
        have hsuffix : (n.splitTail q).labels <:+ n.labels := by
          rw [splitTail_labels, take_of_length_le]
          · exact drop_suffix _ _
          · rw [length_drop]
            simp only [Name.countlabels] at hn ⊢
            omega
        obtain ⟨hall, -⟩ := ih (n.splitTail q) hlen
        refine ⟨fun a ha => ?_, fun a ha => ?_⟩
        · obtain rfl | ha := mem_cons.1 ha
          · exact ⟨suffix_rfl, by omega⟩
          · exact ⟨(hall a ha).1.trans hsuffix, (hall a ha).2⟩
        · have hle := (hall a ha).1.length_le
          simp only [Name.countlabels] at hlen ⊢
          omega
      obtain rfl : q = 0 := by omega
      refine ⟨fun a ha => ?_, by simp [visited]⟩
      obtain rfl | ha := mem_cons.1 ha
      · exact ⟨suffix_rfl, by omega⟩
      · simp [visited] at ha

/-! ### A record of the chain -/

section Chain

variable {sha1 : Sha1} {z : SignedZone} {nsec3name n : Name} {rdata : Bytes}

theorem SignedZone.hashOf_length (a : Name) : (z.hashOf sha1 a).length = 20 := by
  have hready : (⟨[], ⟨1, 0, z.iterations, 0, z.salt, 20, replicate 20 0, []⟩, replicate 20 0, .eq, 0⟩ : Search).Ready :=
    ⟨rfl, rfl, rfl, by simp⟩
  exact @Search.Ready.hash_length sha1 _ hready a

/-- What the loop is given for a record of the chain. -/
structure FromChain (sha1 : Sha1) (z : SignedZone) (n : Name) (s : Search) : Prop where
  ready : s.Ready
  length : s.nsec3.nextLength = 20
  owner : s.owner = z.hashOf sha1 n
  hash : ∀ a, s.hash sha1 a = z.hashOf sha1 a
  labels : s.zlabels = z.apex.countlabels
  mem : n ∈ z.names
  gap : ∀ a, s.covers sha1 a = true → a ∉ z.names
  types : ∀ t, dnsNsec3Typepresent s.rdata t = .ok (z.types n t)

variable {s : Search} {name : Name}

theorem SignedZone.Record.fromChain (h : z.Record sha1 nsec3name rdata n) {rest : List Bytes}
    (hs : Reaches name nsec3name (rdata :: rest) s) : FromChain sha1 z n s := by
  obtain ⟨pre, post, hnames, hincreasing, nsec3, hnsec3, hhash, hiterations, hsalt, hnext, htypes⟩ := h.ring
  obtain ⟨label, labels, buffer, rfl, hlabels, hapex, hdecode, hbuffer⟩ := h.owner
  have hrdata : s.rdata = rdata := (Option.some.inj hs.head).symm
  obtain rfl : nsec3 = s.nsec3 := by
    rw [← hrdata] at hnsec3
    exact Except.ok.inj (hnsec3.symm.trans hs.nsec3)
  have howner : s.owner = z.hashOf sha1 n := by
    obtain ⟨buffer', hdecode', hbuffer'⟩ := hs.owner
    rw [← hbuffer', ← hbuffer]
    exact congrArg Buffer.data (Except.ok.inj (hdecode'.symm.trans hdecode))
  have hhashes : ∀ a, s.hash sha1 a = z.hashOf sha1 a := fun a => by
    rw [Search.hash, hhash, hiterations, hsalt, SignedZone.hashOf]
  refine ⟨hs.ready, ?_, howner, hhashes, ?_, by simp [hnames], fun a ha hmem => ?_, fun t => ?_⟩
  · rw [← hs.ready.owner, howner, SignedZone.hashOf_length]
  · have hlen := congrArg (fun m : Name => m.labels.length) hapex
    simp only [Name.lower, length_map] at hlen
    rw [hs.labels.2, Name.countlabels, Name.countlabels, ← hlen]
    rfl
  · -- the hash lies between two hashes of the ring that are next to each other
    have hring : z.names.map (z.hashOf sha1) =
        pre.map (z.hashOf sha1) ++ z.hashOf sha1 n :: post.map (z.hashOf sha1) := by
      rw [hnames, map_append, map_cons]
    rw [hring] at hincreasing
    apply not_mem_of_between hincreasing (x := z.hashOf sha1 a)
    · rw [← hnext, ← howner, Between, ← hs.ready.scope, ← hhashes a]
      unfold Search.covers at ha
      split at ha
      · next hlt =>
          rw [if_pos hlt]
          simpa using ha
      next hlt =>
        rw [if_neg hlt]
        simpa using ha
    · rw [← hring]
      exact mem_map_of_mem hmem
  · rw [dnsNsec3Typepresent, hs.nsec3, ok_then, htypes]

theorem SignedZone.Record.entry (h : z.Record sha1 nsec3name rdata n) (hname : name.issubdomain z.apex = true)
    (rest : List Bytes) (zonename : Name) :
    (∃ zonename' unknown, Nsec3.entry name nsec3name (rdata :: rest) zonename true = .ok (.leave ignore zonename' unknown)) ∨
      ∃ zonename' s, Nsec3.entry name nsec3name (rdata :: rest) zonename true = .ok (.search zonename' s) := by
  obtain ⟨pre, post, hnames, hincreasing, nsec3, hnsec3, hhash, -, -, hnext, -⟩ := h.ring
  obtain ⟨label, labels, buffer, rfl, hlabels, hapex, hdecode, hbuffer⟩ := h.owner
  have hzone : Name.splitTail ⟨label :: labels⟩ (Name.countlabels ⟨label :: labels⟩ - 1) = ⟨labels⟩ := by
    simp [Name.splitTail, Name.getlabelsequence, Name.countlabels]
  have hsub : name.issubdomain ⟨labels⟩ = true := by
    rw [Name.issubdomain_iff, hapex, ← Name.issubdomain_iff]
    exact hname
  have hlabels' : 0 < labels.length := length_pos_iff.2 hlabels
  have hlen : nsec3.nextLength = 20 := by
    rw [← tostructNsec3_next hnsec3, hnext, CyclicOrder.next]
    cases post with
    | cons p post => rw [map_cons, cons_append, headD_cons, SignedZone.hashOf_length]
    | nil =>
      cases pre with
      | cons p pre => rw [map_nil, nil_append, map_cons, cons_append, headD_cons, SignedZone.hashOf_length]
      | nil =>
        rw [map_nil]
        exact SignedZone.hashOf_length n
  have hused : buffer.used = 20 := by rw [Buffer.used, hbuffer, SignedZone.hashOf_length]
  simp only [Nsec3.entry, hnsec3, ok_then, hzone, hsub]
  rw [if_neg (by simp [Name.countlabels]; omega)]
  simp only [true_eq_false, if_false]
  generalize (if zonename.countlabels = 0 ∨ Name.issubdomain ⟨labels⟩ zonename = true then (⟨labels⟩ : Name) else zonename) = zn
  by_cases hequal : Name.equal ⟨labels⟩ zn = false
  · rw [if_pos hequal]
    exact .inl ⟨_, _, rfl⟩
  rw [if_neg hequal, if_neg (by simp [dnsNsec3Supportedhash, hhash]), headD_cons, hdecode]
  simp only
  rw [if_neg (by rw [hused, hlen]; simp)]
  have hcmp := memcmp_whole (a := buffer.data) (b := nsec3.next)
    (by rw [tostructNsec3_next hnsec3, hlen]; exact hused)
  rw [show buffer.data.length = nsec3.nextLength by rw [hlen]; exact hused] at hcmp
  rw [hcmp]
  exact .inr ⟨_, _, rfl⟩

/-! ### The loop -/

theorem delegation_eq (hs : FromChain sha1 z n s) : delegation s = .ok (z.types n 2 && !z.types n 6) := by
  rw [delegation, andThen, hs.types 2, ok_then, notThen, hs.types 6]
  cases z.types n 2 with
  | true => rfl
  | false => rfl

theorem encloserTypes_eq (hs : FromChain sha1 z n s) :
    encloserTypes s = .ok (!z.types n 43 && (!z.types n 39 && (z.types n 6 || !z.types n 2))) := by
  rw [encloserTypes, andThen, andThen, orElse, notThen, notThen, notThen, hs.types, hs.types, hs.types, hs.types]
  cases z.types n 43 with
  | true => rfl
  | false =>
    cases z.types n 39 with
    | true => rfl
    | false =>
      cases z.types n 6 with
      | true => rfl
      | false => rfl

/-- The record of the query name: it is ignored, or its bitmap answers. -/
theorem firstMatch_chain (hs : FromChain sha1 z n s) (type : UInt16) (out : Outputs) :
    firstMatch s type out = .ok (ignore, out) ∨
      firstMatch s type out = .ok (.success, { out with existsData := some (true, z.types n type) }) := by
  have hanswer : answerOwner s type out = .ok (ignore, out) ∨
      answerOwner s type out = .ok (.success, { out with existsData := some (true, z.types n type) }) := by
    have hcname : ∃ b, cnameAnswers s type = .ok b := by
      unfold cnameAnswers
      split
      · exact ⟨_, rfl⟩
      · exact ⟨_, hs.types 5⟩
    obtain ⟨b, hb⟩ := hcname
    rw [answerOwner, hb, ok_then, hs.types, ok_then]
    cases b with
    | true => exact .inl rfl
    | false => exact .inr rfl
  rw [firstMatch, hs.types, ok_then, hs.types, ok_then]
  split
  · split
    · exact .inl rfl
    · exact hanswer
  split
  · exact .inl rfl
  · exact hanswer

/-- What is said about `nearest` while the loop runs: it is as it was, or a name that does not exist. -/
def NearestOk (z : SignedZone) (name : Name) (out : Outputs) : Prop :=
  ∀ set near, out.nearest = some (set, near) →
    (set = false ∧ near.countlabels = 0) ∨ (near ∉ z.names ∧ near.labels <:+ name.lower.labels)

theorem outAfter_nearest (hs : FromChain sha1 z n s) {names : List Name}
    (hnames : ∀ a ∈ names, a.labels <:+ name.lower.labels) : ∀ out : Outputs, NearestOk z name out →
    NearestOk z name (outAfter sha1 s names out) := by
  induction names with
  | nil => exact fun out h => h
  | cons a names ih =>
    intro out hout
    rw [outAfter, foldl_cons]
    apply ih (fun b hb => hnames b (mem_cons_of_mem _ hb))
    split
    · next hcov =>
        intro set near hnear
        change setNearest a out.nearest = some (set, near) at hnear
        cases ho : out.nearest with
        | none => simp [ho, setNearest] at hnear
        | some p =>
          rw [ho, setNearest] at hnear
          split at hnear
          · cases hnear
            exact .inr ⟨hs.gap a hcov, hnames a (by simp)⟩
          · cases hnear
            exact hout _ _ ho
    · exact hout

/-- The outputs that the names before the owner of the record leave. -/
theorem outAfter_closest (s : Search) (names : List Name) : ∀ out : Outputs,
    (outAfter sha1 s names out).closest = out.closest := by
  induction names with
  | nil => exact fun out => rfl
  | cons a names ih =>
    intro out
    rw [outAfter, foldl_cons]
    refine (ih _).trans ?_
    split
    · rfl
    · rfl

/-- What the call has found out about the name, when the loop ends. -/
structure Proved (z : SignedZone) (name : Name) (type : UInt16) (result : Result) (out : Outputs) : Prop where
  present : result = .success → ∀ d, out.existsData = some (true, d) → name.lower ∈ z.names ∧ d = z.types name.lower type
  absent : result = .success → ∀ d, out.existsData = some (false, d) → name.lower ∉ z.names
  nearest : ∀ near, out.nearest = some (true, near) → near ∉ z.names ∧ near.labels <:+ name.lower.labels
  closest : ∀ c, out.closest = some (true, c) → c ∈ z.names ∧ c.labels <:+ name.lower.labels ∧ c ≠ name.lower ∧
    ¬z.IsDelegation c ∧ z.types c 39 = false

/-- What is left when no name was the owner of the record, or the owner was an ancestor. -/
theorem proved_after {s : Search} (hs : FromChain sha1 z n s) (hclosed : z.Closed) {name : Name} {type : UInt16} {pre : List Name}
    (hpre : ∀ a ∈ pre, a.labels <:+ name.lower.labels ∧ s.zlabels ≤ a.countlabels) {out : Outputs}
    (hnear : NearestOk z name out) {closest : Option (Bool × Name)}
    (hclosest : ∀ c, closest = some (true, c) → c ∈ z.names ∧ c.labels <:+ name.lower.labels ∧ c ≠ name.lower ∧
      ¬z.IsDelegation c ∧ z.types c 39 = false) :
    Proved z name type (answerAfter sha1 s pre ignore) { outAfter sha1 s pre out with closest := closest } := by
  have hcov : answerAfter sha1 s pre ignore = .success → ∃ a ∈ pre, s.covers sha1 a = true := by
    intro h
    by_contra hnone
    rw [answerAfter, if_neg (by simpa using fun a ha hc => hnone ⟨a, ha, hc⟩)] at h
    cases h
  have hdata : answerAfter sha1 s pre ignore = .success → (outAfter sha1 s pre out).existsData = some (false, false) :=
    fun h => outAfter_existsData (hcov h) out
  have hnearest := outAfter_nearest hs (fun a ha => (hpre a ha).1) out hnear
  refine ⟨fun h d hd => ?_, fun h d hd hmem => ?_, fun near hnear' => ?_, hclosest⟩
  · have hd' : (outAfter sha1 s pre out).existsData = some (true, d) := hd
    rw [hdata h] at hd'
    cases hd'
  · -- a name above it, or the name itself, is in the gap
    obtain ⟨a, ha, hcov⟩ := hcov h
    obtain ⟨hsuffix, hlabels⟩ := hpre a ha
    rw [hs.labels] at hlabels
    exact hs.gap a hcov (hclosed _ hmem a hsuffix hlabels)
  · obtain ⟨hfalse, -⟩ | hgood := hnearest true near hnear'
    · cases hfalse
    · exact hgood

theorem visited_head {zlabels q : ℕ} {m a : Name} {post : List Name} (h : visited zlabels q m = a :: post) : a = m := by
  cases q with
  | zero => simp [visited] at h
  | succ q =>
    rw [visited] at h
    split at h
    · cases h
    · exact (cons.inj h).1.symm

theorem setClosest_chain (hs : FromChain sha1 z n s) (out : Outputs) :
    ∃ closest, setClosest s n out = .ok { out with closest := closest } ∧
      (closest = out.closest ∨ (closest = some (true, n) ∧ ¬z.IsDelegation n ∧ z.types n 39 = false)) := by
  cases hc : out.closest with
  | none =>
    refine ⟨none, ?_, .inl rfl⟩
    simp only [setClosest, hc]
    rw [← hc]
  | some p =>
    obtain ⟨set, closest⟩ := p
    have hkeep : out = { out with closest := some (set, closest) } := by rw [← hc]
    simp only [setClosest, hc]
    split
    · rw [encloserTypes_eq hs, ok_then]
      split
      · next htypes =>
          simp only [and_eq_true, not_eq_true', or_eq_true] at htypes
          obtain ⟨-, hdname, hcut⟩ := htypes
          refine ⟨some (true, n), rfl, .inr ⟨rfl, ?_, hdname⟩⟩
          rintro ⟨hns, hsoa⟩
          obtain h | h := hcut
          · rw [hsoa] at h
            cases h
          · rw [hns] at h
            cases h
      · exact ⟨_, congrArg Except.ok hkeep, .inl rfl⟩
    · exact ⟨_, congrArg Except.ok hkeep, .inl rfl⟩

theorem walk_chain (hs : FromChain sha1 z n s) (hclosed : z.Closed)
    (hinj : ∀ a : Name, a.labels <:+ name.lower.labels → z.hashOf sha1 a = z.hashOf sha1 n → a = n) (type : UInt16)
    {out : Outputs} (hnear : NearestOk z name out) (hclosest : ∀ c, out.closest ≠ some (true, c)) :
    ∃ result out', walk sha1 s type (s.names name) true ignore out = .ok (result, out') ∧ Proved z name type result out' := by
  obtain ⟨hsuffix, htail⟩ := visited_suffix s.zlabels name.lower.countlabels name.lower rfl
  have hnever : ∀ c, out.closest = some (true, c) → c ∈ z.names ∧ c.labels <:+ name.lower.labels ∧ c ≠ name.lower ∧
      ¬z.IsDelegation c ∧ z.types c 39 = false := fun c hc => absurd hc (hclosest c)
  obtain hnone | ⟨pre, a, ⟨post, hsplit⟩, hpre, ha⟩ := @firstOwner_or sha1 s (s.names name)
  · have hrun := walk_append type hs.ready hs.length (s.names name) [] true ignore out hnone
    rw [append_nil, walk] at hrun
    refine ⟨_, _, hrun, ?_⟩
    have hproved := @proved_after sha1 z n s hs hclosed name type (s.names name) hsuffix out hnear out.closest hnever
    rwa [← outAfter_closest s (s.names name) out] at hproved
  have hmem : ∀ b ∈ pre ++ a :: post, b.labels <:+ name.lower.labels ∧ s.zlabels ≤ b.countlabels := by
    rw [← hsplit]
    exact hsuffix
  have han : a = n := hinj a (hmem a (by simp)).1 (by rw [← hs.hash, ha, hs.owner])
  rw [hsplit, walk_append type hs.ready hs.length pre (a :: post) true ignore out hpre,
    walk_match type hs.ready hs.length ha]
  cases pre with
  | nil =>
    have hself : a = name.lower := visited_head hsplit
    simp only [isEmpty_nil, Bool.and_true, if_true, outAfter, foldl_nil]
    have hkept : ∀ near, out.nearest = some (true, near) → near ∉ z.names ∧ near.labels <:+ name.lower.labels := by
      intro near hn
      obtain ⟨hfalse, -⟩ | hgood := hnear true near hn
      · cases hfalse
      · exact hgood
    obtain hrun | hrun := firstMatch_chain hs type out
    · exact ⟨_, _, hrun, ⟨(fun h => by cases h), (fun h => by cases h), hkept, hnever⟩⟩
    refine ⟨_, _, hrun, ⟨fun _ d hd => ?_, fun _ d hd => ?_, hkept, hnever⟩⟩
    · cases hd
      rw [← hself, han]
      exact ⟨hs.mem, rfl⟩
    · cases hd
  | cons b pre =>
    have hlt : a.countlabels < name.lower.countlabels := by
      apply htail
      have hnames : visited s.zlabels name.lower.countlabels name.lower = b :: pre ++ a :: post := hsplit
      rw [hnames]
      simp
    have hne : a ≠ name.lower := by
      rintro rfl
      exact lt_irrefl _ hlt
    simp only [isEmpty_cons, Bool.and_false, false_eq_true, if_false]
    have hmempre : ∀ c ∈ b :: pre, c.labels <:+ name.lower.labels ∧ s.zlabels ≤ c.countlabels := fun c hc =>
      hmem c (mem_append_left _ hc)
    rw [superMatch, delegation_eq hs, ok_then]
    by_cases hdel : (z.types n 2 && !z.types n 6) = true
    · rw [if_pos hdel]
      have hproved := @proved_after sha1 z n s hs hclosed name type (b :: pre) hmempre out hnear out.closest hnever
      rw [← outAfter_closest s (b :: pre) out] at hproved
      exact ⟨_, _, rfl, (fun h => by cases h), (fun h => by cases h), hproved.nearest, hproved.closest⟩
    rw [if_neg hdel]
    obtain ⟨closest, hrun, hcl⟩ := setClosest_chain hs (outAfter sha1 s (b :: pre) out)
    rw [outAfter_closest] at hcl
    have hgood : ∀ c, closest = some (true, c) → c ∈ z.names ∧ c.labels <:+ name.lower.labels ∧ c ≠ name.lower ∧
        ¬z.IsDelegation c ∧ z.types c 39 = false := by
      intro c hc
      obtain hkeep | ⟨hset, hdelegation, hdname⟩ := hcl
      · exact hnever c (hkeep.symm.trans hc)
      rw [hset] at hc
      obtain rfl := (Prod.mk.inj (Option.some.inj hc)).2
      exact ⟨hs.mem, han ▸ (hmem a (by simp)).1, han ▸ hne, hdelegation, hdname⟩
    rw [han, hrun, ok_then]
    exact ⟨_, _, rfl, proved_after hs hclosed hmempre hnear hgood⟩

end Chain

/-- **NSEC3 denial.**  With a record of the chain and empty `closest` and `nearest` the call returns, and what it says is so:
on success with `exists` the name is an owner or an empty non-terminal and `data` is what its bitmap says, on success
without it the name does not exist; `nearest`, if it is set, is the name or a name above it that does not exist, `closest`
one above it that exists and is neither a delegation nor the owner of a DNAME. -/
theorem nsec3_denial (sha1 : Sha1) (z : SignedZone) (hclosed : z.Closed) (nsec3name n : Name) (rdata : Bytes)
    (hrecord : z.Record sha1 nsec3name rdata n) (name : Name) (hname : name.issubdomain z.apex = true)
    (hinj : ∀ a : Name, a.labels <:+ name.lower.labels → z.hashOf sha1 a = z.hashOf sha1 n → a = n) (type : UInt16)
    (rest : List Bytes) (zonename : Name) (out : Outputs) (hwanted : out.existsData.isSome = true)
    (hclosest : out.closest = none ∨ out.closest = some (false, ⟨[]⟩))
    (hnearest : out.nearest = none ∨ out.nearest = some (false, ⟨[]⟩)) :
    ∃ result zonename' out', dnsNsec3Noexistnodata sha1 type name nsec3name (rdata :: rest) zonename out =
      .ok (result, zonename', out') ∧ Proved z name type result out' := by
  have hnear : NearestOk z name out := by
    intro set near h
    obtain h' | h' := hnearest
    · rw [h'] at h
      cases h
    rw [h'] at h
    cases h
    exact .inl ⟨rfl, rfl⟩
  have hclose : ∀ c, out.closest ≠ some (true, c) := by
    intro c h
    obtain h' | h' := hclosest
    · rw [h'] at h
      cases h
    · rw [h'] at h
      cases h
  rw [dnsNsec3Noexistnodata, hwanted]
  obtain ⟨zonename', unknown, hentry⟩ | ⟨zonename', s, hentry⟩ := hrecord.entry hname rest zonename
  · rw [hentry, ok_then]
    have hproved : ∀ u : Option Bool, Proved z name type ignore { out with unknown := u } := fun u =>
      ⟨(fun h => by cases h), (fun h => by cases h), fun near h => by
        obtain ⟨hfalse, -⟩ | hgood := hnear true near h
        · cases hfalse
        · exact hgood, fun c h => absurd h (hclose c)⟩
    refine ⟨_, _, _, rfl, ?_⟩
    cases unknown with
    | true => exact hproved _
    | false => exact hproved out.unknown
  have hs := hrecord.fromChain (entry_search hentry)
  obtain ⟨result, out', hrun, hproved⟩ := walk_chain hs hclosed hinj type hnear hclose
  rw [hentry, ok_then]
  simp only
  rw [searchLoop_eq, show visited s.zlabels name.lower.countlabels name.lower = s.names name from rfl, hrun]
  exact ⟨result, zonename', out', rfl, hproved⟩

/-! ### A chain of two records -/

/-- SHA-1 of the wire form of `a.b.`, `b.` and `.`; other messages are not hashed here. -/
def ringSha1 : Sha1 where
  digest bs :=
    if bs = [0] then [91, 169, 60, 157, 176, 207, 249, 63, 82, 181, 33, 215, 66, 14, 67, 246, 237, 162, 120, 79]
    else sampleSha1.digest bs
  length_eq := by
    intro bs
    split
    · rfl
    · exact sampleSha1.length_eq bs

/-- The bitmap of a name of the zone: NS and SOA at the root, A below it. -/
def ringBlock (n : Name) : Block := if n = ⟨[[]]⟩ then ⟨0, [0x22]⟩ else ⟨0, [0x40]⟩

/-- A zone at the root with a name `b.`. -/
def ringZone : SignedZone where
  apex := ⟨[[]]⟩
  names := [⟨[[98], []]⟩, ⟨[[]]⟩]
  types := fun n t => [ringBlock n].any (fun b => decide (b.window = t.toNat / 256) && has b.bits (t.toNat % 256))
  iterations := 0
  salt := []

/-- The rdata of the record of the apex. -/
def ringRdata : Bytes :=
  [1, 0, 0, 0, 0, 20] ++ ([28, 82, 57, 64, 96, 251, 0, 138, 75, 236, 141, 219, 172, 108, 198, 79, 115, 94, 31, 172] ++
    [0, 1, 0x22])

/-- The first label of its owner. -/
def ringLabel : Label :=
  ['B', 'E', 'K', 'J', 'P', '7', 'D', 'G', 'P', 'V', 'S', 'J', 'U', 'K', 'L', 'L', '4', '7', 'B', 'K',
    '4', '3', 'I', '3', 'U', 'R', 'M', 'Q', '4', 'U', '2', 'F'].map (fun c => UInt8.ofNat c.toNat)

theorem suffixes_b {ls : List Label} (h : ls <:+ [[98], []]) : ls = [[98], []] ∨ ls = [[]] ∨ ls = [] := by
  rw [suffix_cons_iff, suffix_cons_iff, suffix_nil] at h
  exact h

theorem ringZone_closed : ringZone.Closed := by
  rintro n hn ⟨labels⟩ ha happex
  have hlen : 1 ≤ labels.length := happex
  have hsuffix : labels <:+ [[98], []] := by
    obtain rfl | rfl : n = ⟨[[98], []]⟩ ∨ n = ⟨[[]]⟩ := by simpa [ringZone] using hn
    · exact ha
    · exact ha.trans (suffix_cons _ _)
  obtain rfl | rfl | rfl := suffixes_b hsuffix
  · exact mem_cons_self ..
  · exact mem_cons_of_mem _ (mem_cons_self ..)
  · simp at hlen

theorem ring_record : ringZone.Record ringSha1 ⟨[ringLabel, []]⟩ ringRdata ⟨[[]]⟩ := by
  refine ⟨⟨[⟨[[98], []]⟩], [], rfl, by unfold CyclicOrder.Increasing; decide, _, rfl, rfl, rfl, rfl, rfl, fun t => ?_⟩,
    ⟨ringLabel, [[]], _, rfl, by simp, rfl, rfl, rfl⟩⟩
  have hwell : WellFormed [ringBlock ⟨[[]]⟩] := by
    refine ⟨?_, pairwise_singleton _ _⟩
    rw [forall_mem_singleton]
    exact ⟨by decide, by decide, by decide, by decide⟩
  exact typepresentLoop_spell t.toNat hwell

/-- The name `a.b.` and the record of the apex. -/
theorem nsec3_denial_ring : ∃ result zonename' out',
    dnsNsec3Noexistnodata ringSha1 1 ⟨[[97], [98], []]⟩ ⟨[ringLabel, []]⟩ [ringRdata] ⟨[]⟩
      ⟨some (true, true), none, none, some (false, ⟨[]⟩), some (false, ⟨[]⟩)⟩ = .ok (result, zonename', out') ∧
      Proved ringZone ⟨[[97], [98], []]⟩ 1 result out' := by
  refine nsec3_denial ringSha1 ringZone ringZone_closed _ _ _ ring_record _ (by decide) ?_ 1 [] _ _ rfl (.inr rfl) (.inr rfl)
  rintro ⟨labels⟩ ha hhash
  obtain rfl | hb := suffix_cons_iff.1 (show labels <:+ [97] :: [[98], []] from ha)
  · exact absurd hhash (by decide)
  obtain rfl | rfl | rfl := suffixes_b hb
  · exact absurd hhash (by decide)
  · rfl
  · exact absurd hhash (by decide)

end Bind9.Nsec3
