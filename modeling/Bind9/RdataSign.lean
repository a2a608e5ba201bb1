import Bind9.RdataOrder

/-! # Signing an RRset

`dns_rdata_compare`, `dns_rdata_digest` and the use that `lib/dns/dnssec.c` makes of them when an RRset is signed:
the records are sorted by `dns_rdata_compare`, a record that compares equal to the one before it is skipped, the
bytes of the others are digested.

`rdata_order_digest` says when the comparison is that of the digested bytes and that, where it is for every pair of
an RRset, the signed bytes are those of the set of the digests in canonical order, whatever the order in which the
records are stored. -/

namespace Bind9.Rdata

/-! ### Records -/

def RdataType.code : RdataType → ℕ
  | wks => 11
  | soa => 6
  | txt => 16
  | px => 26
  | loc => 29
  | nxt => 30
  | srv => 33
  | naptr => 35
  | a6 => 38
  | apl => 42
  | ipseckey => 45
  | rrsig => 46
  | nsec => 47
  | nsec3 => 50
  | hip => 55
  | uri => 256
  | unknown code => code

structure DnsRdata where
  rdclass : ℕ
  type : RdataType
  data : Bytes
deriving DecidableEq, Repr

namespace DnsRdata

def compare (a b : DnsRdata) : Exec Ordering :=
  if a.rdclass ≠ b.rdclass then .ok (if a.rdclass < b.rdclass then .lt else .gt)
  else if a.type.code ≠ b.type.code then .ok (if a.type.code < b.type.code then .lt else .gt)
  else compareSwitch a.data b.data a.type

/-- `dns_rdata_digest`: the bytes that the callback is given. -/
def digest (r : DnsRdata) : Exec Bytes := digestSwitch r.data r.type

end DnsRdata

/-! ### Signing -/

/-- What `rdataset_to_sortedarray` may return for the records of `set`: `qsort` leaves a permutation that is sorted
by `dns_rdata_compare`. -/
structure SortedArray (set arr : List DnsRdata) : Prop where
  perm : arr.Perm set
  sorted : arr.Pairwise (fun a b => a.compare b ≠ .ok .gt)

/-- The loop of `dns_dnssec_sign` over the sorted array: the bytes that are added to the context.  `prev` is the
record before, if there is one. -/
def signLoop (envelope : Bytes) : Option DnsRdata → List DnsRdata → Exec Bytes
  | _, [] => .ok []
  | prev, r :: rs => do
    let order ← match prev with
      | some p => r.compare p
      | none => .ok .gt
    if order = .eq then signLoop envelope (some r) rs
    else do
      require (decide (r.data.length < 65536))
      let bytes ← r.digest
      let rest ← signLoop envelope (some r) rs
      pure (envelope ++ (uint16Bytes r.data.length ++ bytes) ++ rest)

/-- The bytes that are signed for one record with the digest `d`. -/
def signedBytes (envelope d : Bytes) : Bytes := envelope ++ (uint16Bytes d.length ++ d)

section Sign

variable {key : DnsRdata → Bytes} {arr : List DnsRdata}

/-- The records of an array are compared and digested through the bytes `key`. -/
structure Keyed (key : DnsRdata → Bytes) (arr : List DnsRdata) : Prop where
  digest : ∀ r ∈ arr, r.digest = .ok (key r)
  length : ∀ r ∈ arr, r.data.length = (key r).length ∧ r.data.length < 65536
  compare : ∀ a ∈ arr, ∀ b ∈ arr, a.compare b = .ok (Ord.compare (key a) (key b))

theorem Keyed.subset {brr : List DnsRdata} (h : Keyed key arr) (hs : ∀ r ∈ brr, r ∈ arr) : Keyed key brr where
  digest := fun r hr => h.digest r (hs r hr)
  length := fun r hr => h.length r (hs r hr)
  compare := fun a ha b hb => h.compare a (hs a ha) b (hs b hb)

/-- The order of the records by their keys. -/
def keyOrder (key : DnsRdata → Bytes) (a b : DnsRdata) : Ordering := Ord.compare (key a) (key b)

theorem signLoop_from (envelope : Bytes) : ∀ (arr : List DnsRdata) (prev : DnsRdata), Keyed key (prev :: arr) →
    signLoop envelope (some prev) arr =
      .ok (((LexOrder.skipFrom (keyOrder key) prev arr).map key).flatMap (signedBytes envelope))
  | [], _, _ => rfl
  | r :: arr, prev, hk => by
    have hr : r ∈ prev :: r :: arr := by simp
    have ih := signLoop_from envelope arr r (hk.subset (fun x hx => List.mem_cons_of_mem _ hx))
    have hcmp : r.compare prev = .ok (keyOrder key r prev) := hk.compare r hr prev (by simp)
    obtain ⟨hlen, hmax⟩ := hk.length r hr
    simp only [signLoop, LexOrder.skipFrom, hcmp, ok_then]
    split
    · exact ih
    · rw [require_true (by simpa using hmax), ok_then, hk.digest r hr, ok_then, ih, ok_then, hlen]
      rfl

theorem signLoop_eq (envelope : Bytes) (hk : Keyed key arr) : signLoop envelope none arr =
    .ok (((LexOrder.skipDuplicates (keyOrder key) arr).map key).flatMap (signedBytes envelope)) := by
  cases arr with
  | nil => rfl
  | cons r arr =>
    have hr : r ∈ r :: arr := by simp
    obtain ⟨hlen, hmax⟩ := hk.length r hr
    simp only [signLoop, ok_then, reduceCtorEq, if_false]
    rw [require_true (by simpa using hmax), ok_then, hk.digest r hr, ok_then, signLoop_from envelope arr r hk,
      ok_then, hlen]
    rfl

theorem SortedArray.keys {set : List DnsRdata} (h : SortedArray set arr) (hk : Keyed key arr) :
    arr.Pairwise (fun a b => keyOrder key a b ≠ .gt) := by
  refine h.sorted.imp_of_mem (fun {a b} ha hb hab hgt => hab ?_)
  rw [hk.compare a ha b hb]
  exact congrArg Except.ok hgt

end Sign

/-- When `dns_rdata_compare` orders two rdata of a type as the bytes that `dns_rdata_digest` digests. -/
def OrderOk (type : RdataType) (r1 r2 : Bytes) : Prop := type = .nxt → NxtAgree r1 r2

theorem compare_same (rdclass : ℕ) (type : RdataType) (r1 r2 : Bytes) :
    DnsRdata.compare ⟨rdclass, type, r1⟩ ⟨rdclass, type, r2⟩ = compareSwitch r1 r2 type := by
  simp [DnsRdata.compare]

/-- Two accepted rdata of one type: what the two functions return, and when they agree. -/
theorem compare_digest {validate : Bytes → ℤ} {type : RdataType} {r1 r2 : Bytes} (ht : type ≠ .rrsig)
    (h1 : Layout validate type r1) (h2 : Layout validate type r2) :
    ∃ o d1 d2, compareSwitch r1 r2 type = .ok o ∧ digestSwitch r1 type = .ok d1 ∧ digestSwitch r2 type = .ok d2 ∧
      d1.length = r1.length ∧ (o = Ord.compare d1 d2 ↔ OrderOk type r1 r2) := by
  by_cases hn : type = .nxt
  · subst hn
    cases h1 with
    | nxt a x =>
      cases h2 with
      | nxt b y =>
        obtain ⟨o, ho, hiff⟩ := nxt_compare a b x y
        refine ⟨o, _, _, ho, digestNxt_eq a x, digestNxt_eq b y, by simp [ndata_length_lower], ?_⟩
        rw [hiff, OrderOk]
        simp
  · obtain ⟨d1, d2, hd1, hd2, hl, -, hc⟩ := agree_of_layout h1 h2 hn ht
    exact ⟨_, d1, d2, hc, hd1, hd2, hl, by simp [OrderOk, hn]⟩

/-- The digest of a record, as a function. -/
def digestKey (r : DnsRdata) : Bytes := r.digest.toOption.getD []

theorem keyed_of_accepted {validate : Bytes → ℤ} {rdclass : ℕ} {type : RdataType} {set : List DnsRdata}
    (ht : type ≠ .rrsig) (hset : ∀ r ∈ set, r.rdclass = rdclass ∧ r.type = type ∧ Accepted validate type r.data)
    (hok : ∀ a ∈ set, ∀ b ∈ set, OrderOk type a.data b.data) : Keyed digestKey set := by
  have hpair : ∀ a ∈ set, ∀ b ∈ set, a.digest = .ok (digestKey a) ∧ a.data.length = (digestKey a).length ∧
      a.compare b = .ok (Ord.compare (digestKey a) (digestKey b)) := by
    intro a ha b hb
    obtain ⟨rfl, hta, haa⟩ := hset a ha
    obtain ⟨hcb, htb, hab⟩ := hset b hb
    obtain ⟨o, d1, d2, ho, hd1, hd2, hl, hiff⟩ :=
      compare_digest ht (layout_of_accepted haa).1 (layout_of_accepted hab).1
    have ka : digestKey a = d1 := by simp [digestKey, DnsRdata.digest, hta, hd1, Except.toOption]
    have kb : digestKey b = d2 := by simp [digestKey, DnsRdata.digest, htb, hd2, Except.toOption]
    rw [ka, kb]
    refine ⟨by rw [DnsRdata.digest, hta, hd1], hl.symm, ?_⟩
    rw [← hiff.2 (hok a ha b hb), ← ho, DnsRdata.compare, if_neg (by simp [hcb]), if_neg (by simp [hta, htb]), hta]
  exact {
    digest := fun r hr => (hpair r hr r hr).1
    length := fun r hr => by
      have hmax := (layout_of_accepted (hset r hr).2.2).2
      rw [DNS_RDATA_MAXLENGTH] at hmax
      exact ⟨(hpair r hr r hr).2.1, by omega⟩
    compare := fun a ha b hb => (hpair a ha b hb).2.2 }

/-- **Order and digest.**  For two accepted rdata of a type other than RRSIG the sign of `dns_rdata_compare` is that
of the digested bytes iff `OrderOk` holds.  If it holds for all pairs of an RRset, then there is one list of the
digests of its records, strictly increasing, such that every sorted array of the records, in whatever order they
are stored, has its digests in this order and makes `dns_dnssec_sign` sign exactly the bytes of the list. -/
theorem rdata_order_digest (validate : Bytes → ℤ) (rdclass : ℕ) (type : RdataType) (ht : type ≠ .rrsig) :
    (∀ r1 r2, Accepted validate type r1 → Accepted validate type r2 →
      ∃ o d1 d2, DnsRdata.compare ⟨rdclass, type, r1⟩ ⟨rdclass, type, r2⟩ = .ok o ∧
        DnsRdata.digest ⟨rdclass, type, r1⟩ = .ok d1 ∧ DnsRdata.digest ⟨rdclass, type, r2⟩ = .ok d2 ∧
        (o = Ord.compare d1 d2 ↔ OrderOk type r1 r2)) ∧
    (∀ set : List DnsRdata, (∀ r ∈ set, r.rdclass = rdclass ∧ r.type = type ∧ Accepted validate type r.data) →
      (∀ a ∈ set, ∀ b ∈ set, OrderOk type a.data b.data) →
      ∃ ds : List Bytes, ds.Pairwise (fun x y => Ord.compare x y = .lt) ∧ (∀ d, d ∈ ds ↔ ∃ r ∈ set, r.digest = .ok d) ∧
        ∀ (envelope : Bytes) (set' arr : List DnsRdata), set'.Perm set → SortedArray set' arr →
          arr.Pairwise (fun a b => ∃ x y, a.digest = .ok x ∧ b.digest = .ok y ∧ Ord.compare x y ≠ .gt) ∧
          signLoop envelope none arr = .ok (ds.flatMap (signedBytes envelope))) := by
  constructor
  · intro r1 r2 h1 h2
    obtain ⟨o, d1, d2, ho, hd1, hd2, -, hiff⟩ :=
      compare_digest ht (layout_of_accepted h1).1 (layout_of_accepted h2).1
    exact ⟨o, d1, d2, by rw [compare_same, ho], hd1, hd2, hiff⟩
  · intro set hset hok
    have hk := keyed_of_accepted ht hset hok
    obtain ⟨brr, hbrr, hsb⟩ := LexOrder.exists_sorted digestKey set
    have hs0 : brr.Pairwise (fun a b => keyOrder digestKey a b ≠ .gt) := hsb
    have hmem : ∀ r, r ∈ brr ↔ r ∈ set := fun r => hbrr.mem_iff
    have hkey : ∀ as : List DnsRdata, ∀ a ∈ as, ∀ b ∈ as, keyOrder digestKey a b =
        Ord.compare (digestKey a) (digestKey b) := fun _ _ _ _ _ => rfl
    refine ⟨(LexOrder.skipDuplicates (keyOrder digestKey) brr).map digestKey,
      LexOrder.skipDuplicates_sorted (hkey brr) hs0, fun d => ?_, ?_⟩
    · rw [LexOrder.mem_keys_skipDuplicates (hkey brr) hs0, List.mem_map]
      constructor
      · rintro ⟨r, hr, rfl⟩
        exact ⟨r, (hmem r).1 hr, hk.digest r ((hmem r).1 hr)⟩
      · rintro ⟨r, hr, hd⟩
        rw [hk.digest r hr] at hd
        exact ⟨r, (hmem r).2 hr, Except.ok.inj hd⟩
    · intro envelope set' arr hperm harr
      have hsub : ∀ r, r ∈ arr ↔ r ∈ set := fun r => (harr.perm.trans hperm).mem_iff
      have hka : Keyed digestKey arr := hk.subset (fun r hr => (hsub r).1 hr)
      have hsa := harr.keys hka
      refine ⟨hsa.imp_of_mem (fun {a b} ha hb h => ⟨_, _, hka.digest a ha, hka.digest b hb, h⟩), ?_⟩
      rw [signLoop_eq envelope hka]
      congr 2
      apply LexOrder.keys_skipDuplicates_eq _ (hkey arr) (hkey brr) hsa hs0
      intro x
      simp only [List.mem_map, hsub, hmem]

theorem accepted_nxt (validate : Bytes → ℤ) (c b : UInt8) (hb : b ≠ 0) :
    Accepted validate .nxt ((oneLetter c).name.ndata ++ [b]) := by
  let env : WireEnv := ⟨[1, c, 0, b], .any, false, validate⟩
  have hst : env.name DNS_COMPRESS_NONE ⟨0, ⟨[], 100⟩⟩ = .ok ⟨3, ⟨[1, c, 0], 100⟩⟩ :=
    WireEnv.name_of_ndata (oneLetter c) rfl ⟨[b], rfl⟩ (by simp [Buffer.available, Buffer.used, oneLetter_length])
  have hreg : env.activeregion ⟨3, ⟨[1, c, 0], 100⟩⟩ = [b] := rfl
  have hnxt : fromwireSwitch env ⟨0, ⟨[], 100⟩⟩ .nxt = .ok ⟨4, ⟨[1, c, 0, b], 100⟩⟩ := by
    rw [fromwireSwitch, fromwireNxt, hst, ok_then]
    simp only [hreg]
    rw [if_neg (by simp [hb])]
    rfl
  exact accepted_of_switch (by simp [WireEnv.activeregion, env]) hnxt (by simp [DNS_RDATA_MAXLENGTH, Buffer.used]) rfl

/-- The records `NXT a. 0x40` and `NXT A. 0x60`: the digests are in this order, `compare_nxt` has them the other way
round. -/
theorem nxt_order_reversed : Accepted (fun _ => 0) .nxt [1, 97, 0, 0x40] ∧ Accepted (fun _ => 0) .nxt [1, 65, 0, 0x60] ∧
      DnsRdata.compare ⟨1, .nxt, [1, 97, 0, 0x40]⟩ ⟨1, .nxt, [1, 65, 0, 0x60]⟩ = .ok .gt ∧
      DnsRdata.digest ⟨1, .nxt, [1, 97, 0, 0x40]⟩ = .ok [1, 97, 0, 0x40] ∧
      DnsRdata.digest ⟨1, .nxt, [1, 65, 0, 0x60]⟩ = .ok [1, 97, 0, 0x60] ∧
      Ord.compare [1, 97, 0, (0x40 : UInt8)] [1, 97, 0, 0x60] = .lt :=
  ⟨accepted_nxt _ 97 0x40 (by decide), accepted_nxt _ 65 0x60 (by decide), by decide, by decide, by decide, by decide⟩

/-- Two NXT records for different names, signed in their canonical order. -/
theorem rdata_order_digest_nxt : ∃ o d1 d2, DnsRdata.compare ⟨1, .nxt, [1, 97, 0, 0x40]⟩ ⟨1, .nxt, [1, 98, 0, 0x40]⟩ =
    .ok o ∧ DnsRdata.digest ⟨1, .nxt, [1, 97, 0, 0x40]⟩ = .ok d1 ∧
    DnsRdata.digest ⟨1, .nxt, [1, 98, 0, 0x40]⟩ = .ok d2 ∧ o = Ord.compare d1 d2 := by
  obtain ⟨o, d1, d2, ho, h1, h2, hiff⟩ := (rdata_order_digest (fun _ => 0) 1 .nxt (by decide)).1 _ _
    (accepted_nxt _ 97 0x40 (by decide)) (accepted_nxt _ 98 0x40 (by decide))
  refine ⟨o, d1, d2, ho, h1, h2, hiff.2 (fun _ => ?_)⟩
  rw [nxtAgree_iff]
  intro hlower
  exact absurd hlower (by decide)

end Bind9.Rdata
