import Bind9.RadixTable

/-! # Merged address match lists match first things first

An ACL is seen as the list of its entries in the order of the configuration (`AclEntry`), and its
verdict is the sign of the first entry that holds (`firstMatch`).  `Built` tells which ACLs the
operations of `lib/dns/acl.c` and `lib/dns/iptable.c` produce for which lists.

The ordinals of the entries carry the order: `First` says that the entry with the least ordinal
gives the verdict, and is kept when entries with higher ordinals are added (`First.append`). -/

namespace Bind9

open Patricia Radix
open List

/-! ### Lists of entries -/

/-- An entry of an address match list; `none` is the address of "any" and "none". -/
inductive AclEntry where
  | net (na : Option NetAddr) (bitlen : ℕ) (pos : Bool)
  | keyname (name : Name) (negative : Bool)
  | nested (entries : List AclEntry) (negative : Bool)
  | localhost (negative : Bool)
  | localnets (negative : Bool)

def AclEntry.positive : AclEntry → Bool
  | .net _ _ pos => pos
  | .keyname _ negative => !negative
  | .nested _ negative => !negative
  | .localhost negative => !negative
  | .localnets negative => !negative

/-- The entry with its sign turned negative, unless `pos`. -/
def AclEntry.signed (pos : Bool) : AclEntry → AclEntry
  | .net na bitlen p => .net na bitlen (pos && p)
  | .keyname name negative => .keyname name (!pos || negative)
  | .nested entries negative => .nested entries (!pos || negative)
  | .localhost negative => .localhost (!pos || negative)
  | .localnets negative => .localnets (!pos || negative)

def netHolds (na : Option NetAddr) (bitlen : ℕ) (addr : NetAddr) : Bool :=
  match na with
  | none => true
  | some a => a.family = addr.family &&
      (range bitlen).all (fun i => bitTest a.bytes i == bitTest addr.bytes i)

mutual

/-- The entry matches the request; a nested list does when its own verdict is positive. -/
def AclEntry.holds (env : Option AclEnv) (req : AclRequest) : AclEntry → Bool
  | .net na bitlen _ => netHolds na bitlen (effectiveAddr env req.addr)
  | .keyname name _ => req.signedBy name
  | .nested entries _ => decide (0 < firstMatch env req entries)
  | .localhost _ => envMatch (env.bind AclEnv.localhost) req
  | .localnets _ => envMatch (env.bind AclEnv.localnets) req

/-- The sign of the first entry that matches, or 0. -/
def firstMatch (env : Option AclEnv) (req : AclRequest) : List AclEntry → ℤ
  | [] => 0
  | e :: es => if e.holds env req then (if e.positive then 1 else -1) else firstMatch env req es

end

variable (env : Option AclEnv) (req : AclRequest)

theorem firstMatch_append (env : Option AclEnv) (req : AclRequest) : ∀ (es es' : List AclEntry),
    firstMatch env req (es ++ es') =
      if firstMatch env req es ≠ 0 then firstMatch env req es else firstMatch env req es'
  | [], es' => by simp [firstMatch]
  | e :: es, es' => by
    rw [cons_append, firstMatch, firstMatch]
    cases he : e.holds env req with
    | true => cases e.positive <;> simp
    | false => simpa using firstMatch_append env req es es'
theorem firstMatch_single (e : AclEntry) :
    firstMatch env req [e] = if e.holds env req then (if e.positive then 1 else -1) else 0 := rfl

theorem holds_signed (pos : Bool) (e : AclEntry) :
    (e.signed pos).holds env req = e.holds env req := by
  cases e <;> simp only [AclEntry.signed, AclEntry.holds]

theorem positive_signed (pos : Bool) (e : AclEntry) : (e.signed pos).positive = (pos && e.positive) := by
  cases e <;> simp [AclEntry.signed, AclEntry.positive]

theorem firstMatch_signed (env : Option AclEnv) (req : AclRequest) (pos : Bool) : ∀ (es : List AclEntry),
    firstMatch env req (es.map (AclEntry.signed pos)) =
      if pos then firstMatch env req es else -|firstMatch env req es|
  | [] => by simp [firstMatch]
  | e :: es => by
    rw [map_cons, firstMatch, firstMatch, holds_signed, positive_signed, firstMatch_signed env req pos es]
    cases e.holds env req <;> cases e.positive <;> cases pos <;> simp
/-! ### The least ordinal decides -/

/-- The sign of a hit. -/
def sgn (v : Bool) : ℤ := if v then 1 else -1

/-- The verdict is the sign of the hit with the least ordinal. -/
def First (hits : ℤ → Bool → Prop) (verdict : ℤ) : Prop :=
  (verdict = 0 ∧ ∀ n v, ¬ hits n v) ∨
    ∃ n v, hits n v ∧ verdict = sgn v ∧ ∀ n' v', hits n' v' → n < n' ∨ n = n' ∧ v = v'

theorem sgn_ne_zero (v : Bool) : sgn v ≠ 0 := by cases v <;> simp [sgn]

/-- More hits behind those there are. -/
theorem First.append {hits more all : ℤ → Bool → Prop} {verdict verdict' : ℤ} (h : First hits verdict) (N : ℤ)
    (hmore : First more verdict') (hle : ∀ n v, hits n v → n ≤ N) (hlt : ∀ n v, more n v → N < n)
    (hsub : ∀ n v, hits n v → all n v) (hall : ∀ n v, all n v → hits n v ∨ more n v)
    (hnew : (∀ n v, ¬ hits n v) → ∀ n v, more n v → all n v) : First all (if verdict ≠ 0 then verdict else verdict') := by
  obtain ⟨rfl, hno⟩ | ⟨n, v, hn, rfl, hmin⟩ := h
  · have hiff : ∀ n v, all n v ↔ more n v :=
      fun n v => ⟨fun ha => (hall n v ha).resolve_left (hno n v), hnew hno n v⟩
    rw [if_neg (by simp)]
    unfold First at hmore ⊢
    simpa only [hiff] using hmore
  rw [if_pos (sgn_ne_zero v)]
  refine .inr ⟨n, v, hsub n v hn, rfl, fun n' v' ha => ?_⟩
  rcases hall n' v' ha with hh | hm
  · exact hmin n' v' hh
  have h1 := hle n v hn
  have h2 := hlt n' v' hm
  exact .inl (by omega)

/-- Hits of another list, counted on and with their signs turned. -/
theorem First.shift {hits : ℤ → Bool → Prop} {verdict : ℤ} (h : First hits verdict) (N : ℤ) (pos : Bool) :
    First (fun n v => ∃ m w, hits m w ∧ n = N + m ∧ v = (pos && w)) (if pos then verdict else -|verdict|) := by
  obtain ⟨rfl, hno⟩ | ⟨n, v, hn, rfl, hmin⟩ := h
  · refine .inl ⟨by simp, ?_⟩
    rintro n v ⟨m, w, hm, -⟩
    exact hno m w hm
  refine .inr ⟨N + n, pos && v, ⟨n, v, hn, rfl, rfl⟩, ?_, ?_⟩
  · cases pos <;> cases v <;> simp [sgn]
  · rintro n' v' ⟨m, w, hm, rfl, rfl⟩
    rcases hmin m w hm with h1 | ⟨rfl, rfl⟩
    · exact .inl (by omega)
    · exact .inr ⟨rfl, rfl⟩

/-- One hit, or none. -/
theorem First.single (c : Bool) (n : ℤ) (v : Bool) :
    First (fun n' v' => c = true ∧ n' = n ∧ v' = v) (if c then sgn v else 0) := by
  cases c with
  | false => exact .inl ⟨rfl, by simp⟩
  | true => exact .inr ⟨n, v, ⟨rfl, rfl, rfl⟩, rfl, fun n' v' h => Or.inr ⟨h.2.1.symm, h.2.2.symm⟩⟩

/-! ### The hits of an ACL -/

/-- The host prefix that a request is looked up with. -/
def requestPrefix : Prefix := hostPrefix (effectiveAddr env req.addr)

/-- The radix tree has an entry for the address of the request. -/
def RadixHit (t : BitTree RadixNode) (n : ℤ) (v : Bool) : Prop :=
  ∃ len, At t (requestPrefix env req).family.is6 len (toBits (requestPrefix env req).add) n v

/-- One of the elements matches the request. -/
def ElementHit (es : List AclElement) (n : ℤ) (v : Bool) : Prop :=
  ∃ e ∈ es, kindMatch env req e.kind = some true ∧ n = e.nodeNum ∧ v = !e.negative

/-- Something in the ACL matches the request. -/
def AclHit (a : Acl) (n : ℤ) (v : Bool) : Prop :=
  RadixHit env req a.radix.head n v ∨ ElementHit env req a.elements n v

/-- The elements of an ACL: in the order of their ordinals, and none of them fails to answer. -/
structure ElementsOk (N : ℤ) (es : List AclElement) : Prop where
  ordered : es.Pairwise (fun e e' => e.nodeNum < e'.nodeNum)
  nums : ∀ e ∈ es, 1 ≤ e.nodeNum ∧ e.nodeNum ≤ N
  answers : ∀ e ∈ es, ∀ env req, ∃ b, kindMatch env req e.kind = some b

/-- The outcome of a match: the hit with the least ordinal. -/
def Least (hits : ℤ → Bool → Prop) (m : ℤ) : Prop :=
  (m = 0 ∧ ∀ n v, ¬ hits n v) ∨
    ∃ n v, hits n v ∧ m = (if v then n else -n) ∧ ∀ n' v', hits n' v' → n ≤ n'

theorem First.sign {hits : ℤ → Bool → Prop} {verdict m : ℤ} (h : First hits verdict) (hm : Least hits m)
    (hpos : ∀ n v, hits n v → 1 ≤ n) : m.sign = verdict := by
  obtain ⟨rfl, hno⟩ | ⟨n, v, hn, rfl, hmin⟩ := h
  · obtain ⟨rfl, -⟩ | ⟨n, v, hn, -, -⟩ := hm
    · rfl
    · exact absurd hn (hno n v)
  obtain ⟨-, hno⟩ | ⟨n', v', hn', rfl, hmin'⟩ := hm
  · exact absurd hn (hno n v)
  have hle := hmin' n v hn
  have hge := hpos n v hn
  obtain ⟨rfl, rfl⟩ : n = n' ∧ v = v' := by
    rcases hmin n' v' hn' with h | h
    · omega
    · exact h
  cases v with
  | false =>
    rw [if_neg (by simp), Int.sign_neg, Int.sign_eq_one_of_pos (by omega)]
    rfl
  | true =>
    rw [if_pos rfl, Int.sign_eq_one_of_pos (by omega)]
    rfl

theorem elementsMatch_spec (env : Option AclEnv) (req : AclRequest) (best : Option (ℤ × Bool)) (matchNum m : ℤ)
    (hbest : best = none ∧ matchNum = -1 ∧ m = 0 ∨
      ∃ n v, best = some (n, v) ∧ 1 ≤ n ∧ matchNum = n ∧ m = if v then n else -n) :
    ∀ es : List AclElement, es.Pairwise (fun e e' => e.nodeNum < e'.nodeNum) →
      (∀ e ∈ es, ∃ b, kindMatch env req e.kind = some b) →
      ∃ r, elementsMatch env req matchNum m es = some r ∧
        Least (fun n v => best = some (n, v) ∨ ElementHit env req es n v) r
  | [], _, _ => by
    refine ⟨m, rfl, ?_⟩
    rcases hbest with ⟨rfl, -, rfl⟩ | ⟨n, v, rfl, -, -, rfl⟩
    · exact .inl ⟨rfl, by simp [ElementHit]⟩
    refine .inr ⟨n, v, Or.inl rfl, rfl, ?_⟩
    rintro n' v' (h | ⟨e, he, -⟩)
    · cases h
      exact le_rfl
    · simp at he
  | .mk kind negative nodeNum :: rest, hord, hans => by
    obtain ⟨hlt, hrest⟩ := pairwise_cons.1 hord
    obtain ⟨⟨b, hb⟩, hansr⟩ := forall_mem_cons.1 hans
    change kindMatch env req kind = some b at hb
    have hlater : ∀ n v, ElementHit env req rest n v → nodeNum < n := by
      rintro n v ⟨e, he, -, rfl, -⟩
      exact hlt e he
    have hcons : ∀ n v, ElementHit env req (.mk kind negative nodeNum :: rest) n v ↔
        (b = true ∧ n = nodeNum ∧ v = !negative) ∨ ElementHit env req rest n v := by
      intro n v
      unfold ElementHit
      rw [exists_mem_cons_iff]
      change (kindMatch env req kind = some true ∧ n = nodeNum ∧ v = !negative) ∨ _ ↔ _
      rw [hb, Option.some.injEq]
    simp only [hcons]
    rw [elementsMatch]
    split
    · next hstop =>
        refine ⟨m, rfl, ?_⟩
        rcases hbest with ⟨-, rfl, -⟩ | ⟨n, v, rfl, -, rfl, rfl⟩
        · exact absurd rfl hstop.1
        refine .inr ⟨matchNum, v, Or.inl rfl, rfl, ?_⟩
        rintro n' v' (h | ⟨-, rfl, -⟩ | h)
        · cases h
          exact le_rfl
        · exact le_of_lt hstop.2
        · exact le_of_lt (lt_trans hstop.2 (hlater n' v' h))
    next hgo =>
      rw [hb]
      cases b with
      | false =>
        simp only [Bool.false_eq_true, false_and, false_or]
        exact elementsMatch_spec env req best matchNum m hbest rest hrest hansr
      | true =>
        dsimp only
        split
        · next hless =>
            refine ⟨_, rfl, Or.inr ⟨nodeNum, !negative, Or.inr (Or.inl ⟨rfl, rfl, rfl⟩), ?_, ?_⟩⟩
            · cases negative <;> rfl
            · rintro n' v' (h | ⟨-, rfl, -⟩ | h)
              · rcases hbest with ⟨h', -⟩ | ⟨n, v, h', hn, rfl, -⟩
                · rw [h'] at h
                  cases h
                · rw [h'] at h
                  cases h
                  omega
              · exact le_rfl
              · exact le_of_lt (hlater n' v' h)
        next hless =>
          refine ⟨m, rfl, ?_⟩
          rcases hbest with ⟨-, rfl, -⟩ | ⟨n, v, rfl, -, rfl, rfl⟩
          · exact absurd (Or.inl rfl) hless
          refine .inr ⟨matchNum, v, Or.inl rfl, rfl, ?_⟩
          rintro n' v' (h | ⟨-, rfl, -⟩ | h)
          · cases h
            exact le_rfl
          · omega
          · have := hlater n' v' h
            omega

theorem requestPrefix_host : IsHost (requestPrefix env req) ∧
    (requestPrefix env req).family = (effectiveAddr env req.addr).family := by
  unfold requestPrefix hostPrefix
  generalize effectiveAddr env req.addr = addr
  cases addr with
  | inet b =>
    refine ⟨⟨(toPrefix_ok ?_).2, rfl⟩, rfl⟩
    exact .inl ⟨rfl, le_rfl⟩
  | inet6 b =>
    refine ⟨⟨(toPrefix_ok ?_).2, rfl⟩, rfl⟩
    exact .inr (.inl ⟨rfl, le_rfl⟩)

theorem radixMatch_spec {radix : RadixTree} (h : TableOk radix) :
    (radixMatch env req radix = some (-1, 0) ∧ ∀ n v, ¬ RadixHit env req radix.head n v) ∨
      ∃ n v, radixMatch env req radix = some (n, if v then n else -n) ∧ RadixHit env req radix.head n v ∧
        1 ≤ n ∧ ∀ n' v', RadixHit env req radix.head n' v' → n ≤ n' := by
  obtain ⟨hhost, hfam⟩ := requestPrefix_host env req
  unfold radixMatch
  dsimp only
  rw [← hfam, ← requestPrefix]
  rcases search_spec h.struct h.nums hhost with ⟨hs, hno⟩ | ⟨x, len, v, hs, hd, hat, hmin⟩
  · rw [hs]
    refine .inl ⟨rfl, ?_⟩
    rintro n v ⟨len, hat⟩
    exact hno len n v hat
  rw [hs]
  dsimp only
  rw [hd]
  refine .inr ⟨_, v, rfl, ⟨len, hat⟩, ?_, ?_⟩
  · obtain ⟨y, hy, -, -, hslot⟩ := hat
    obtain ⟨h1, h2, -⟩ := slot_eq_some.1 hslot
    rcases (h.nums y hy).family (requestPrefix env req).family.is6 with ⟨h', -⟩ | ⟨h', -⟩
    · exact absurd h' h2
    · omega
  · rintro n' v' ⟨len', hat'⟩
    exact hmin len' n' v' hat'

variable {a : Acl}

theorem aclMatch_least (env : Option AclEnv) (req : AclRequest) {N : ℤ} (hr : TableOk a.radix)
    (he : ElementsOk N a.elements) : ∃ m, aclMatch env req a = some m ∧ Least (AclHit env req a) m := by
  obtain ⟨radix, elements⟩ := a
  have hord : elements.Pairwise (fun e e' => e.nodeNum < e'.nodeNum) := he.ordered
  have hans : ∀ e ∈ elements, ∃ b, kindMatch env req e.kind = some b := fun e hem => he.answers e hem env req
  rw [aclMatch]
  rcases radixMatch_spec env req hr with ⟨hs, hno⟩ | ⟨n, v, hs, hhit, hn, hmin⟩
  · change radixMatch env req radix = _ at hs
    rw [hs]
    obtain ⟨m, hm, hleast⟩ := elementsMatch_spec env req none (-1) 0 (Or.inl ⟨rfl, rfl, rfl⟩) elements hord hans
    refine ⟨m, hm, ?_⟩
    have hiff : ∀ n v, AclHit env req (.mk radix elements) n v ↔
        (none : Option (ℤ × Bool)) = some (n, v) ∨ ElementHit env req elements n v :=
      fun n v => or_congr_left ⟨fun h => absurd h (hno n v), fun h => by cases h⟩
    unfold Least at hleast ⊢
    simpa only [hiff] using hleast
  change radixMatch env req radix = _ at hs
  rw [hs]
  obtain ⟨m, hm, hleast⟩ := elementsMatch_spec env req (some (n, v)) _ _ (Or.inr ⟨n, v, rfl, hn, rfl, rfl⟩)
    elements hord hans
  refine ⟨m, hm, ?_⟩
  obtain ⟨-, hnone⟩ | ⟨n', v', hhit', rfl, hle⟩ := hleast
  · exact absurd (Or.inl rfl) (hnone n v)
  refine .inr ⟨n', v', hhit'.imp_left fun h => ?_, rfl, ?_⟩
  · cases h
    exact hhit
  · rintro n'' v'' (h | h)
    · exact (hle n v (Or.inl rfl)).trans (hmin n'' v'' h)
    · exact hle n'' v'' (Or.inr h)

/-! ### ACLs and the lists they are built from -/

/-- The condition for a merge: where both ACLs have a node for a prefix nothing goes wrong, and the
ordinals stay in the range of an `int`. -/
def MergeOk (pos : Bool) (dest source : Acl) : Prop :=
  TablesMeet pos dest.radix source.radix ∧ dest.nodeCount + source.nodeCount < 2 ^ 31

/-- An ACL and the entries it has been built from, with merges that meet the condition `Ok`. -/
inductive Built ( Ok : Bool → Acl → Acl → Prop) : Acl → List AclEntry → Prop
  | empty : Built Ok (.mk ⟨.nil, 0, 0⟩ []) []
  | net {a : Acl} {es : List AclEntry} {sur : Surroundings} {na : Option NetAddr} {bitlen : ℕ} {pos : Bool}
      {radix : RadixTree} (h : Built Ok a es) (legal : (toPrefix na bitlen).Legal)
      (room : a.nodeCount + 1 < 2 ^ 31) (done : iptableAddPrefix sur a.radix na bitlen pos = some (.success, radix)) :
      Built Ok (.mk radix a.elements) (es ++ [.net na bitlen pos])
  | keyname {a : Acl} {es : List AclEntry} (name : Name) (negative : Bool) (h : Built Ok a es)
      (room : a.nodeCount + 1 < 2 ^ 31) :
      Built Ok (a.append (.keyname name) negative) (es ++ [.keyname name negative])
  | nested {a inner : Acl} {es es' : List AclEntry} (negative : Bool) (h : Built Ok a es)
      (hinner : Built Ok inner es') (room : a.nodeCount + 1 < 2 ^ 31) :
      Built Ok (a.append (.nestedacl inner) negative) (es ++ [.nested es' negative])
  | localhost {a : Acl} {es : List AclEntry} (negative : Bool) (h : Built Ok a es)
      (room : a.nodeCount + 1 < 2 ^ 31) : Built Ok (a.append .localhost negative) (es ++ [.localhost negative])
  | localnets {a : Acl} {es : List AclEntry} (negative : Bool) (h : Built Ok a es)
      (room : a.nodeCount + 1 < 2 ^ 31) : Built Ok (a.append .localnets negative) (es ++ [.localnets negative])
  | merge {dest source a : Acl} {es es' : List AclEntry} {mem : Bool} {sur : ℕ → Surroundings} {pos : Bool}
      (h : Built Ok dest es) (h' : Built Ok source es') (ok : Ok pos dest source)
      (done : aclMerge mem sur dest source pos = some (.success, some a)) :
      Built Ok a (es ++ es'.map (AclEntry.signed pos))

structure AclInv (a : Acl) (es : List AclEntry) : Prop where
  table : TableOk a.radix
  elements : ElementsOk a.nodeCount a.elements
  room : a.nodeCount < 2 ^ 31
  first : ∀ env req, First (AclHit env req a) (firstMatch env req es)

theorem AclHit.bounds {env : Option AclEnv} {req : AclRequest} (ht : TableOk a.radix)
    (he : ElementsOk a.nodeCount a.elements) {n : ℤ} {v : Bool} (h : AclHit env req a n v) : 1 ≤ n ∧ n ≤ a.nodeCount := by
  rcases h with ⟨len, x, hx, -, -, hslot⟩ | ⟨e, hmem, -, rfl, -⟩
  · obtain ⟨rfl, h2, -⟩ := slot_eq_some.1 hslot
    rcases (ht.nums x hx).family (requestPrefix env req).family.is6 with ⟨h, -⟩ | ⟨h1, h2, -⟩
    · exact absurd h h2
    · exact ⟨h1, h2⟩
  · exact he.nums e hmem

variable {es : List AclEntry}

theorem AclInv.sign (h : AclInv a es) (env : Option AclEnv) (req : AclRequest) :
    ∃ m, aclMatch env req a = some m ∧ m.sign = firstMatch env req es := by
  obtain ⟨m, hm, hleast⟩ := aclMatch_least env req h.table h.elements
  exact ⟨m, hm, (h.first env req).sign hleast (fun n v hit => (hit.bounds h.table h.elements).1)⟩

theorem AclInv.empty : AclInv (.mk ⟨.nil, 0, 0⟩ []) [] := by
  refine ⟨⟨fun c => ⟨trivial, trivial, fun x hx => ?_⟩, le_rfl, fun x hx => ?_⟩,
    ⟨Pairwise.nil, fun e he => ?_, fun e he => ?_⟩, by decide, fun env req => Or.inl ⟨rfl, ?_⟩⟩
  · exact absurd hx not_mem_nil
  · exact absurd hx not_mem_nil
  · exact absurd he not_mem_nil
  · exact absurd he not_mem_nil
  · rintro n v (⟨len, x, hx, -⟩ | ⟨e, he, -⟩)
    · exact absurd hx not_mem_nil
    · exact absurd he not_mem_nil

theorem ElementsOk.grow {es : List AclElement} {M N : ℤ} (h : ElementsOk M es) (hN : M ≤ N) : ElementsOk N es :=
  ⟨h.ordered, fun e he => ⟨(h.nums e he).1, (h.nums e he).2.trans hN⟩, h.answers⟩

/-- A new element. -/
theorem AclInv.append (h : AclInv a es) {kind : AclElementKind} {negative : Bool}
    {e : AclEntry} (room : a.nodeCount + 1 < 2 ^ 31)
    (hholds : ∀ env req, kindMatch env req kind = some (e.holds env req)) (hpos : e.positive = !negative) :
    AclInv (a.append kind negative) (es ++ [e]) := by
  have hcount : 0 ≤ a.nodeCount := h.table.count
  have hnew : ∀ x ∈ a.elements ++ [.mk kind negative (a.nodeCount + 1)],
      x ∈ a.elements ∨ x = .mk kind negative (a.nodeCount + 1) := by
    intro x hx
    simpa using hx
  refine ⟨h.table.grow (by change a.nodeCount ≤ _; omega), ⟨?_, ?_, ?_⟩, room, fun env req => ?_⟩
  · refine pairwise_append.2 ⟨h.elements.ordered, by simp, fun x hx y hy => ?_⟩
    rw [mem_singleton.1 hy]
    have := (h.elements.nums x hx).2
    change _ < a.nodeCount + 1
    omega
  · intro x hx
    change 1 ≤ x.nodeNum ∧ x.nodeNum ≤ a.nodeCount + 1
    rcases hnew x hx with hx | rfl
    · have := h.elements.nums x hx
      omega
    · change 1 ≤ a.nodeCount + 1 ∧ a.nodeCount + 1 ≤ a.nodeCount + 1
      omega
  · intro x hx env req
    rcases hnew x hx with hx | rfl
    · exact h.elements.answers x hx env req
    · exact ⟨_, hholds env req⟩
  · rw [firstMatch_append, firstMatch_single, hpos]
    have hall : ∀ n v, AclHit env req (a.append kind negative) n v ↔
        AclHit env req a n v ∨ (e.holds env req = true ∧ n = a.nodeCount + 1 ∧ v = !negative) := by
      intro n v
      unfold AclHit
      rw [or_assoc]
      refine or_congr_right ?_
      unfold ElementHit
      change (∃ x ∈ a.elements ++ [.mk kind negative (a.nodeCount + 1)], _) ↔ _
      simp only [mem_append, mem_singleton, or_and_right, exists_or, exists_eq_left]
      change _ ∨ (kindMatch env req kind = some true ∧ n = a.nodeCount + 1 ∧ v = !negative) ↔ _
      rw [hholds, Option.some.injEq]
    refine (h.first env req).append a.nodeCount (First.single (e.holds env req) (a.nodeCount + 1) (!negative))
      ?_ ?_ ?_ ?_ ?_
    · exact fun n v hit => (hit.bounds h.table h.elements).2
    · rintro n v ⟨-, rfl, -⟩
      omega
    · exact fun n v hit => (hall n v).2 (Or.inl hit)
    · exact fun n v hit => (hall n v).1 hit
    · exact fun _ n v hit => (hall n v).2 (Or.inr hit)

theorem toBits_toPrefix {a : NetAddr} {bitlen i : ℕ} (hlt : i < bitlen) (hlen : bitlen ≤ 8 * a.bytes.length) :
    toBits (toPrefix (some a) bitlen).add i = bitTest a.bytes i := by
  have htake : i / 8 < (a.bytes.take ((bitlen + 7) / 8)).length := by
    rw [length_take]
    omega
  rw [bitTest_eq]
  unfold toBits toPrefix
  rw [getD_eq_getElem?_getD, getElem?_append_left htake, getElem?_take_of_lt (by omega),
    ← getD_eq_getElem?_getD]

theorem bytes_length (a : NetAddr) : 8 * a.bytes.length = if a.family = .inet6 then 128 else 32 := by
  cases a <;> simp [NetAddr.bytes, NetAddr.family]

theorem netHolds_iff (env : Option AclEnv) (req : AclRequest) {na : Option NetAddr} {bitlen : ℕ}
    (legal : (toPrefix na bitlen).Legal) : netHolds na bitlen (effectiveAddr env req.addr) = true ↔
      (toPrefix na bitlen).family.covers (requestPrefix env req).family.is6 = true ∧
        Agree (toPrefix na bitlen).bitlen (toBits (toPrefix na bitlen).add) (toBits (requestPrefix env req).add) := by
  obtain ⟨-, hfam⟩ := requestPrefix_host env req
  rw [hfam]
  unfold requestPrefix hostPrefix
  generalize effectiveAddr env req.addr = addr
  obtain _ | a := na
  · exact ⟨fun _ => ⟨rfl, fun i hi => absurd hi (Nat.not_lt_zero i)⟩, fun _ => rfl⟩
  have hcovers : a.family.covers addr.family.is6 = true ↔ a.family = addr.family := by
    cases a <;> cases addr <;> simp [NetAddr.family, Family.covers, Family.is6]
  have hlen : bitlen ≤ 8 * a.bytes.length := by
    rw [bytes_length]
    cases a <;> simpa [Prefix.Legal, toPrefix, NetAddr.family] using legal
  unfold netHolds
  rw [Bool.and_eq_true, decide_eq_true_eq, all_eq_true]
  change _ ↔ a.family.covers _ = true ∧ Agree bitlen _ _
  rw [hcovers]
  refine and_congr_right fun hfam => ?_
  have hhost : bitlen ≤ if addr.family = .inet6 then 128 else 32 := by
    rw [← hfam, ← bytes_length]
    exact hlen
  have hbits : ∀ i < bitlen, toBits (toPrefix (some a) bitlen).add i = bitTest a.bytes i ∧
      toBits (toPrefix (some addr) (if addr.family = .inet6 then 128 else 32)).add i = bitTest addr.bytes i :=
    fun i hi => ⟨toBits_toPrefix hi hlen, toBits_toPrefix (lt_of_lt_of_le hi hhost) (bytes_length addr).ge⟩
  constructor
  · intro h i hi
    rw [(hbits i hi).1, (hbits i hi).2]
    exact beq_iff_eq.1 (h i (mem_range.2 hi))
  · intro h i hi
    have hlt := mem_range.1 hi
    rw [beq_iff_eq, ← (hbits i hlt).1, ← (hbits i hlt).2]
    exact h i hlt

/-- A new prefix. -/
theorem AclInv.net {a : Acl} {es : List AclEntry} (h : AclInv a es) {sur : Surroundings} {na : Option NetAddr}
    {bitlen : ℕ} {pos : Bool} {radix : RadixTree} (legal : (toPrefix na bitlen).Legal)
    (room : a.nodeCount + 1 < 2 ^ 31) (done : iptableAddPrefix sur a.radix na bitlen pos = some (.success, radix)) :
    AclInv (.mk radix a.elements) (es ++ [.net na bitlen pos]) := by
  rcases iptableAddPrefix_spec sur h.table legal pos with hfail | ⟨radix', hdone, htable, hle, hle', hupd⟩
  · rw [hfail] at done
    cases done
  rw [hdone] at done
  cases done
  refine ⟨htable, h.elements.grow hle, lt_of_le_of_lt hle' room, fun env req => ?_⟩
  · rw [firstMatch_append, firstMatch_single]
    refine (h.first env req).append a.nodeCount
      (First.single ((AclEntry.net na bitlen pos).holds env req) (a.nodeCount + 1) pos) ?_ ?_ ?_ ?_ ?_
    · exact fun n v hit => (hit.bounds h.table h.elements).2
    · rintro n v ⟨-, rfl, -⟩
      omega
    · rintro n v (⟨len, hat⟩ | hit)
      · exact .inl ⟨len, (hupd _ _ _ _ _).2 (Or.inl hat)⟩
      · exact .inr hit
    · rintro n v (⟨len, hat⟩ | hit)
      · rcases (hupd _ _ _ _ _).1 hat with hat | ⟨-, rfl, hagree, hentry⟩
        · exact .inl (.inl ⟨len, hat⟩)
        · unfold entryFor at hentry
          split at hentry
          · next hc =>
              obtain ⟨rfl, rfl⟩ := Prod.mk.inj (Option.some.inj hentry)
              exact .inr ⟨(netHolds_iff env req legal).2 ⟨hc, hagree⟩, rfl, rfl⟩
          · cases hentry
      · exact .inl (.inr hit)
    · rintro hno n v ⟨hholds, rfl, rfl⟩
      obtain ⟨hc, hagree⟩ := (netHolds_iff env req legal).1 hholds
      refine .inl ⟨_, (hupd _ _ _ _ _).2 (Or.inr ⟨?_, rfl, hagree, by rw [entryFor, if_pos hc]; rfl⟩)⟩
      exact fun n' v' hat => hno n' v' (Or.inl ⟨_, hat⟩)

theorem le_maxElement : ∀ (es : List AclElement) (m : ℤ),
    m ≤ es.foldl (fun m e => max m e.nodeNum) m ∧ ∀ e ∈ es, e.nodeNum ≤ es.foldl (fun m e => max m e.nodeNum) m
  | [], m => ⟨le_rfl, by simp⟩
  | e :: rest, m => by
    obtain ⟨h1, h2⟩ := le_maxElement rest (max m e.nodeNum)
    rw [foldl_cons]
    refine ⟨(le_max_left _ _).trans h1, fun x hx => ?_⟩
    rcases mem_cons.1 hx with rfl | hx
    · exact (le_max_right _ _).trans h1
    · exact h2 x hx

theorem maxElement_le {B : ℤ} : ∀ (es : List AclElement) (m : ℤ), m ≤ B → (∀ e ∈ es, e.nodeNum ≤ B) →
    es.foldl (fun m e => max m e.nodeNum) m ≤ B
  | [], m, hm, _ => hm
  | e :: rest, m, hm, h => by
    obtain ⟨he, hrest⟩ := forall_mem_cons.1 h
    rw [foldl_cons]
    exact maxElement_le rest _ (max_le hm he) hrest

theorem ElementsOk.merge {M N K : ℤ} {dest source : List AclElement} (hd : ElementsOk N dest) (h0 : 0 ≤ N)
    (hs : ElementsOk M source) (pos : Bool) (hNK : N ≤ K) (hK : maxElement source + N ≤ K) :
    ElementsOk K (dest ++ source.map (mergeElement N pos)) := by
  have hmax : ∀ e ∈ source, e.nodeNum ≤ maxElement source := (le_maxElement source 0).2
  have hsource : ∀ x ∈ source.map (mergeElement N pos), ∃ e ∈ source, x.nodeNum = e.nodeNum + N ∧ x.kind = e.kind := by
    intro x hx
    obtain ⟨e, he, rfl⟩ := mem_map.1 hx
    exact ⟨e, he, rfl, rfl⟩
  refine ⟨pairwise_append.2 ⟨hd.ordered, pairwise_map.2 (hs.ordered.imp ?_), ?_⟩, ?_, ?_⟩
  · intro e e' hlt
    change e.nodeNum + N < e'.nodeNum + N
    omega
  · intro x hx y hy
    obtain ⟨e, he, hnum, -⟩ := hsource y hy
    have h1 := (hd.nums x hx).2
    have h2 := (hs.nums e he).1
    omega
  · intro x hx
    rcases mem_append.1 hx with hx | hx
    · have := hd.nums x hx
      omega
    obtain ⟨e, he, hnum, -⟩ := hsource x hx
    have h1 := hs.nums e he
    have h2 := hmax e he
    omega
  · intro x hx env req
    rcases mem_append.1 hx with hx | hx
    · exact hd.answers x hx env req
    obtain ⟨e, he, -, hkind⟩ := hsource x hx
    rw [hkind]
    exact hs.answers e he env req

theorem elementHit_merge (env : Option AclEnv) (req : AclRequest) (N : ℤ) (pos : Bool) {dest source : List AclElement}
    {n : ℤ} {v : Bool} : ElementHit env req (dest ++ source.map (mergeElement N pos)) n v ↔
      ElementHit env req dest n v ∨ ∃ m w, ElementHit env req source m w ∧ n = N + m ∧ v = (pos && w) := by
  unfold ElementHit
  simp only [mem_append, mem_map, or_and_right, exists_or]
  refine or_congr_right ⟨?_, ?_⟩
  · rintro ⟨x, ⟨e, he, rfl⟩, hmatch, rfl, rfl⟩
    refine ⟨e.nodeNum, !e.negative, ⟨e, he, hmatch, rfl, rfl⟩, Int.add_comm _ _, ?_⟩
    simp [mergeElement, AclElement.negative]
  · rintro ⟨m, w, ⟨e, he, hmatch, rfl, rfl⟩, rfl, rfl⟩
    refine ⟨mergeElement N pos e, ⟨e, he, rfl⟩, hmatch, Int.add_comm _ _, ?_⟩
    simp [mergeElement, AclElement.negative]

theorem AclInv.merge {dest source a : Acl} {es es' : List AclEntry} (h : AclInv dest es) (h' : AclInv source es')
    {mem : Bool} {sur : ℕ → Surroundings} {pos : Bool} (ok : MergeOk pos dest source)
    (done : aclMerge mem sur dest source pos = some (.success, some a)) : AclInv a (es ++ es'.map (AclEntry.signed pos)) := by
  unfold aclMerge at done
  cases mem with
  | false => cases done
  | true =>
    rcases iptableMerge_spec sur h.table h'.table ok.1 with ⟨radix, hm⟩ | ⟨radix, hm, htable, hge, hle, hat⟩
    · simp [hm] at done
    simp only [hm, Bool.not_true, Bool.false_eq_true, if_false] at done
    cases done
    have hN : 0 ≤ dest.nodeCount := h.table.count
    have hmax : maxElement source.elements ≤ source.nodeCount :=
      maxElement_le _ 0 h'.table.count (fun e he => (h'.elements.nums e he).2)
    have hroom : dest.nodeCount + source.nodeCount < 2 ^ 31 := ok.2
    refine ⟨htable.grow (le_max_right _ _), ?_, ?_, fun env req => ?_⟩
    · exact h.elements.merge hN h'.elements pos (hge.trans (le_max_right _ _)) (le_max_left _ _)
    · exact max_lt (by omega) (lt_of_le_of_lt hle hroom)
    · rw [firstMatch_append, firstMatch_signed]
      refine (h.first env req).append dest.nodeCount ((h'.first env req).shift dest.nodeCount pos) ?_ ?_ ?_ ?_ ?_
      · exact fun n v hit => (hit.bounds h.table h.elements).2
      · rintro n v ⟨m, w, hit, rfl, -⟩
        have := (hit.bounds h'.table h'.elements).1
        omega
      · rintro n v (⟨len, hd⟩ | hit)
        · exact .inl ⟨len, (hat _ _ _ _ _).2 (Or.inl hd)⟩
        · exact .inr ((elementHit_merge env req _ pos).2 (Or.inl hit))
      · rintro n v (⟨len, hd⟩ | hit)
        · rcases (hat _ _ _ _ _).1 hd with hd | ⟨-, m, w, hs, rfl, rfl⟩
          · exact .inl (.inl ⟨len, hd⟩)
          · exact .inr ⟨m, w, Or.inl ⟨len, hs⟩, rfl, rfl⟩
        · rcases (elementHit_merge env req _ pos).1 hit with hit | ⟨m, w, hit', rfl, rfl⟩
          · exact .inl (.inr hit)
          · exact .inr ⟨m, w, Or.inr hit', rfl, rfl⟩
      · rintro hno n v ⟨m, w, ⟨len, hs⟩ | hit, rfl, rfl⟩
        · refine .inl ⟨len, (hat _ _ _ _ _).2 (Or.inr ⟨fun n' v' hd => ?_, m, w, hs, rfl, rfl⟩)⟩
          exact hno n' v' (Or.inl ⟨len, hd⟩)
        · exact .inr ((elementHit_merge env req _ pos).2 (Or.inr ⟨m, w, hit, rfl, rfl⟩))

theorem built_inv (h : Built MergeOk a es) : AclInv a es := by
  induction h with
  | empty => exact AclInv.empty
  | net _ legal room done ih => exact ih.net legal room done
  | keyname name negative _ room ih | localhost negative _ room ih | localnets negative _ room ih =>
    refine ih.append room (fun env req => ?_) rfl
    rw [kindMatch, AclEntry.holds]
  | nested negative _ _ room ih ih' =>
    refine ih.append room (fun env req => ?_) rfl
    obtain ⟨m, hm, hsign⟩ := ih'.sign env req
    rw [kindMatch, AclEntry.holds, hm, ← hsign, Option.map_some]
    exact congrArg some (decide_eq_decide.2 Int.sign_pos_iff.symm)
  | merge _ _ ok done ih ih' => exact ih.merge ih' ok done

/-- After a merge that meets the condition, of ACLs built with such merges, every request gets the sign
of the first entry that matches it, of the destination's entries followed by the source's. -/
theorem aclMerge_firstMatch {dest source a : Acl} {es es' : List AclEntry} (h : Built MergeOk dest es)
    (h' : Built MergeOk source es') {mem : Bool} {sur : ℕ → Surroundings} {pos : Bool}
    (ok : MergeOk pos dest source) (done : aclMerge mem sur dest source pos = some (.success, some a))
    (env : Option AclEnv) (req : AclRequest) :
    (aclMatch env req a).map Int.sign = some (firstMatch env req (es ++ es'.map (AclEntry.signed pos))) := by
  obtain ⟨m, hm, hsign⟩ := (built_inv (Built.merge h h' ok done)).sign env req
  rw [hm, Option.map_some, hsign]

/-! ### Merges that go wrong -/

/-- Memory for everything. -/
def plenty : Surroundings := ⟨true, true, true, []⟩

/-- The network 10.0.0.0, or 0a00:: -/
def tenNet (is6 : Bool) : NetAddr :=
  if is6 then .inet6 #v[10, 0, 0, 0, 0, 0, 0, 0, 0, 0, 0, 0, 0, 0, 0, 0] else .inet #v[10, 0, 0, 0]

def tenHost (is6 : Bool) : AclRequest :=
  ⟨if is6 then .inet6 #v[10, 0, 0, 0, 0, 0, 0, 0, 0, 0, 0, 0, 0, 0, 0, 1] else .inet #v[10, 0, 0, 1], none⟩

/-- The node for the first `bits` bits of the network. -/
def tenNode (is6 : Bool) (bits : ℕ) : RadixNode :=
  if is6 then ⟨bits, some ⟨.inet6, bits, 10 :: replicate 15 0⟩, -1, 1, none, some true⟩
  else ⟨bits, some ⟨.inet, bits, [10, 0, 0, 0]⟩, 1, -1, some true, none⟩

/-- The ACL `{ 10.0.0.0/bits; }`, or `{ 0a00::/bits; }`. -/
def tenAcl (is6 : Bool) (bits : ℕ) : Acl := .mk ⟨.node (tenNode is6 bits) .nil .nil, 1, 1⟩ []

theorem tenAcl_built ( Ok : Bool → Acl → Acl → Prop) : Built Ok (tenAcl false 8) [.net (some (tenNet false)) 8 true] ∧
      Built Ok (tenAcl true 8) [.net (some (tenNet true)) 8 true] ∧
      Built Ok (tenAcl false 16) [.net (some (tenNet false)) 16 true] :=
  ⟨@Built.net Ok _ [] plenty (some (tenNet false)) 8 true _ Built.empty (by decide) (by decide) (by decide +kernel),
    @Built.net Ok _ [] plenty (some (tenNet true)) 8 true _ Built.empty (by decide) (by decide) (by decide +kernel),
    @Built.net Ok _ [] plenty (some (tenNet false)) 16 true _ Built.empty (by decide) (by decide) (by decide +kernel)⟩

/-- An IPv6 entry is lost in the node of an IPv4 one; of two IPv4 entries there comes an IPv6 one
without data; and a negated entry makes the destination's own negative. -/
theorem aclMerge_not_firstMatch : (Built (fun _ _ _ => True) (tenAcl false 8) [.net (some (tenNet false)) 8 true] ∧
      Built (fun _ _ _ => True) (tenAcl true 8) [.net (some (tenNet true)) 8 true]) ∧
    (∃ a, aclMerge true (fun _ => plenty) (tenAcl false 8) (tenAcl true 8) true = some (.success, some a) ∧
      aclMatch none (tenHost true) a = some 0 ∧
      firstMatch none (tenHost true) [.net (some (tenNet false)) 8 true, .net (some (tenNet true)) 8 true] = 1) ∧
    (∃ a, aclMerge true (fun _ => plenty) (tenAcl false 8) (tenAcl false 8) true = some (.success, some a) ∧
      aclMatch none (tenHost true) a = none ∧
      firstMatch none (tenHost true) [.net (some (tenNet false)) 8 true, .net (some (tenNet false)) 8 true] = 0) ∧
    ∃ a, aclMerge true (fun _ => plenty) (tenAcl false 8) (tenAcl false 8) false = some (.success, some a) ∧
      aclMatch none (tenHost false) a = some (-1) ∧ firstMatch none (tenHost false)
        [.net (some (tenNet false)) 8 true, .net (some (tenNet false)) 8 false] = 1 := by
  obtain ⟨h4, h6, -⟩ := tenAcl_built (fun _ _ _ => True)
  refine ⟨⟨h4, h6⟩, ⟨_, rfl, ?_, ?_⟩, ⟨_, rfl, ?_, ?_⟩, ⟨_, rfl, ?_, ?_⟩⟩ <;> decide +kernel

/-- Prefixes of different lengths meet nowhere. -/
theorem aclMerge_firstMatch_nets : ∃ a, MergeOk false (tenAcl false 8) (tenAcl false 16) ∧
    aclMerge true (fun _ => plenty) (tenAcl false 8) (tenAcl false 16) false = some (.success, some a) ∧
    (aclMatch none (tenHost false) a).map Int.sign = some (firstMatch none (tenHost false)
      ([.net (some (tenNet false)) 8 true] ++ [.net (some (tenNet false)) 16 true].map (AclEntry.signed false))) := by
  obtain ⟨h8, -, h16⟩ := tenAcl_built MergeOk
  have hok : MergeOk false (tenAcl false 8) (tenAcl false 16) := by
    refine ⟨fun s hs p hp b hb hsame => ?_, by decide⟩
    obtain rfl : s = tenNode false 16 := by simpa [tenAcl, Acl.radix, BitTree.labels] using hs
    obtain rfl : b = tenNode false 8 := by simpa [tenAcl, Acl.radix, BitTree.labels] using hb
    cases hp
    exact absurd hsame.1 (by decide)
  obtain ⟨a, done⟩ : ∃ a, aclMerge true (fun _ => plenty) (tenAcl false 8) (tenAcl false 16) false =
      some (.success, some a) := ⟨_, rfl⟩
  exact ⟨a, hok, done, aclMerge_firstMatch h8 h16 hok done none (tenHost false)⟩

end Bind9
