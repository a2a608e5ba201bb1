import Bind9.Lib.SortedLists
import Bind9.RdataCase
import Bind9.Update

/-! # Update prerequisites

The prerequisite section of an update, as `update_action` of `bin/named/update.c` handles it.  The records with the class
of the zone are collected in `temp`, sorted by `temp_order` and compared with the version by `temp_check`: record by
record, one RRset after the other.

Signatures are grouped by the type RRSIG or SIG only, and looked up with the type that the first of them covers; records
that are listed twice are compared twice; and the tree of the NSEC3 records is never looked at.  `prerequisites` says when
none of this matters. -/

namespace Bind9.Update

open List hiding any
open Bool hiding or_false or_self not_not

open Diff ZoneDb Rbtdb SortedLists

def sig : UInt16 := 24

/-- `DNS_DIFFOP_EXISTS` and the operations of a journal. -/
inductive TempOp where
  | exists
  | diff (op : DiffOp)
deriving DecidableEq, Repr

/-- `dns_difftuple_t`; the TTL is 0. -/
structure TempTuple where
  op : TempOp
  name : Name
  type : UInt16
  rdata : Rdata
deriving DecidableEq

def tempAppend (diff : List TempTuple) (name : Name) (type : UInt16) (rdata : Rdata) : List TempTuple :=
  diff ++ [⟨.exists, name, type, rdata⟩]

def dnsRdataCovers (rdata : Rdata) : Exec UInt16 := do
  let type ← uint16Fromregion rdata
  pure (UInt16.ofNat type)

variable (env : UpdateEnv)

/-! ### `temp_check` -/

def tempCheckRrset : List TempTuple → List TempTuple → Exec Unit
  | [], [] => .ok ()
  | a :: as, b :: bs => do
    require (decide (a.op = .exists) && decide (b.op = .exists))
    require (a.type == b.type)
    require (a.name.equal b.name)
    if env.casecompare a.type a.rdata b.rdata ≠ .eq then stop .nxrrset else tempCheckRrset as bs
  | _, _ => stop .nxrrset

/-- The owner and the type, as `temp_order` compares them: the greater type comes first. -/
def ownerOrder : TempTuple → TempTuple → Ordering :=
  compareLex (fun a b => compare (a.name.compare b.name) 0) (fun a b => compare b.type.toNat a.type.toNat)

def tempOrder : TempTuple → TempTuple → Ordering :=
  thenCompare ownerOrder (fun c a b => env.casecompare c.type a.rdata b.rdata)

/-- `dns_db_findnode`; a node without data makes no difference here. -/
def findnode (z : Zone) (name : Name) : Bool := !(nodeRrsets z name).isEmpty

/-- `dns_db_findrdataset` on a node of the main tree. -/
def findrdataset (z : Zone) (name : Name) (type covers : UInt16) : Option Rdataset :=
  if (rrsetKey name type covers).isNsec3 then none else z.find (rrsetKey name type covers)

/-- `covers` of `temp_check`; `dns_rdatatype_any` has no RRset. -/
def tempCovers (t : TempTuple) : Exec UInt16 :=
  if t.type = rrsig ∨ t.type = sig then dnsRdataCovers t.rdata
  else if t.type = any then stop .nxrrset
  else .ok 0

/-- One round of the inner loop of `temp_check`, for the records `us` of one type, which start with `t`. -/
def tempCheckType (z : Zone) (name : Name) (t : TempTuple) (us : List TempTuple) : Exec Unit := do
  let covers ← tempCovers t
  match findrdataset z name t.type covers with
  | none => stop .nxrrset
  | some rdataset =>
    let d := rdataset.rdata.1.foldl (fun d rdata => tempAppend d name t.type rdata) []
    tempCheckRrset env us (env.qsort.sort (tempOrder env) d)

/-- The inner loop of `temp_check`: the records of an owner.  The first record has the owner and the type of its own
RRset, so that at least this one is taken off the list. -/
def tempCheckTypes (z : Zone) (name : Name) : List TempTuple → Exec (List TempTuple)
  | [] => .ok []
  | t :: ts =>
    if t.name.equal name then do
      tempCheckType env z name t (t :: ts.takeWhile (fun u => u.name.equal name && u.type == t.type))
      tempCheckTypes z name (ts.dropWhile (fun u => u.name.equal name && u.type == t.type))
    else .ok (t :: ts)
termination_by ts => ts.length
decreasing_by
  have := (dropWhile_sublist (fun u : TempTuple => u.name.equal name && u.type == t.type) (l := ts)).length_le
  simp only [length_cons]
  omega

theorem tempCheckTypes_length_le (z : Zone) (name : Name) : ∀ (n : ℕ) (ts rest : List TempTuple), ts.length ≤ n →
    tempCheckTypes env z name ts = .ok rest → rest.length ≤ ts.length := by
  intro n
  induction n with
  | zero =>
    intro ts rest hn h
    obtain rfl := length_eq_zero_iff.1 (Nat.le_zero.1 hn)
    rw [tempCheckTypes] at h
    cases h
    exact le_rfl
  | succ n ih =>
    intro ts rest hn h
    cases ts with
    | nil =>
      rw [tempCheckTypes] at h
      cases h
      exact le_rfl
    | cons t ts =>
      rw [tempCheckTypes] at h
      split at h
      · obtain ⟨-, -, h⟩ := bind_eq_ok h
        have hdrop := (dropWhile_sublist (fun u : TempTuple => u.name.equal name && u.type == t.type) (l := ts)).length_le
        rw [length_cons] at hn
        have hrest := ih _ rest (by omega) h
        rw [length_cons]
        omega
      · cases h
        exact le_rfl

variable {z ver : Zone} {t u : TempTuple}

/-- The records of the first owner are taken off. -/
theorem tempCheckTypes_length {ts rest : List TempTuple}
    (h : tempCheckTypes env z t.name (t :: ts) = .ok rest) : rest.length < (t :: ts).length := by
  rw [tempCheckTypes, if_pos ((Name.equal_iff _ _).2 rfl)] at h
  obtain ⟨-, -, h⟩ := bind_eq_ok h
  have hdrop := (dropWhile_sublist (fun u : TempTuple => u.name.equal t.name && u.type == t.type) (l := ts)).length_le
  have hrest := tempCheckTypes_length_le env z t.name _ _ rest le_rfl h
  rw [length_cons]
  omega

/-- `temp_check`, the outer loop. -/
def tempCheck (z : Zone) : List TempTuple → Exec Unit
  | [] => .ok ()
  | t :: ts =>
    if findnode z t.name then
      match _h : tempCheckTypes env z t.name (t :: ts) with
      | .error e => .error e
      | .ok rest => tempCheck z rest
    else stop .nxrrset
termination_by ts => ts.length
decreasing_by exact tempCheckTypes_length env _h

/-! ### The section -/

def rcode (n : ℕ) : Result := .other (3 * 2 ^ 16 + n)

/-- One record of the prerequisite section. -/
def prereqRr (ver : Zone) (temp : List TempTuple) (u : UpdateRr) : Exec (List TempTuple) :=
  if u.ttl ≠ 0 then stop .formerr
  else if u.name.issubdomain env.origin = false then stop .notzone
  else if u.updateClass = classAny then
    if u.rdata.length ≠ 0 then stop .formerr
    else if u.type = any then if (nodeRrsets ver u.name).isEmpty then stop (rcode 3) else .ok temp
    else if rrsetExists ver u.name u.type u.covers then .ok temp
    else stop .nxrrset
  else if u.updateClass = classNone then
    if u.rdata.length ≠ 0 then stop .formerr
    else if u.type = any then if (nodeRrsets ver u.name).isEmpty then .ok temp else stop (rcode 6)
    else if rrsetExists ver u.name u.type u.covers then stop (rcode 7)
    else .ok temp
  else if u.updateClass = env.rdclass then .ok (tempAppend temp u.name u.type u.rdata)
  else stop .formerr

def prereqSection (ver : Zone) (us : List UpdateRr) : Exec Unit := do
  let temp ← us.foldlM (prereqRr env ver) []
  if temp = [] then .ok () else tempCheck env ver (env.qsort.sort (tempOrder env) temp)

/-! ### The laws behind it -/

/-- The type that a record covers; 0 for one that is not a signature. -/
def coveredType (type : UInt16) (r : Rdata) : UInt16 :=
  if type = rrsig ∨ type = sig then typeCovered r else 0

/-- What the code relies on in `dns_rdata_casecompare`: it is an order, and signatures that it takes for equal cover the
same type. -/
structure LawfulCase (casecompare : UInt16 → Rdata → Rdata → Ordering) : Prop where
  trans : ∀ type, Std.TransCmp (casecompare type)
  covers : ∀ {type r s}, casecompare type r s = .eq → coveredType type r = coveredType type s

/-- The rdatasets of signatures hold signatures of the type that they are filed under. -/
def Filed (z : Zone) : Prop := ∀ e ∈ z, ∀ r ∈ e.2.rdata.1, coveredType e.1.type.base r = e.1.type.covers

/-- The rdata of a signature starts with a type. -/
def TempTuple.Good (t : TempTuple) : Prop := t.op = .exists ∧ (t.type = rrsig ∨ t.type = sig → 2 ≤ t.rdata.length)

theorem ownerOrder_eq : ownerOrder =
    compareLex (compareOn fun t : TempTuple => t.name.orderKey) (fun a b => compare b.type.toNat a.type.toNat) := by
  funext a b
  simp only [ownerOrder, compareLex, Name.sign_compare, compareOn]

instance ownerOrder_trans : Std.TransCmp ownerOrder := by
  have := transCmp_descending (fun t : TempTuple => t.type.toNat)
  rw [ownerOrder_eq]
  infer_instance

theorem ownerOrder_eq_iff {a b : TempTuple} : ownerOrder a b = .eq ↔ (b.name.equal a.name && b.type == a.type) = true := by
  rw [ownerOrder_eq, compareLex, Ordering.then_eq_eq, compareOn, Std.LawfulEqCmp.compare_eq_iff_eq, Name.orderKey_inj,
    compare_eq_iff_eq, UInt16.toNat_inj, and_eq_true, beq_iff_eq, Name.equal_iff, eq_comm]

variable {env}

theorem tempOrder_trans (hc : LawfulCase env.casecompare) : Std.TransCmp (tempOrder env) := by
  apply transCmp_thenCompare
  · intro c
    exact transCmp_comp (hc.trans c.type) TempTuple.rdata
  · intro a b h
    have htype := ownerOrder_eq_iff.1 h
    simp only [and_eq_true, beq_iff_eq] at htype
    rw [htype.2]

/-- The records of the RRsets of `t`'s owner and type, as the inner loop takes them off the list. -/
def own (t u : TempTuple) : Bool := u.name.equal t.name && u.type == t.type

theorem own_iff : own t u = true ↔ u.name.lower = t.name.lower ∧ u.type = t.type := by
  rw [own, and_eq_true, beq_iff_eq, Name.equal_iff]

theorem own_self (t : TempTuple) : own t t = true := own_iff.2 ⟨rfl, rfl⟩

theorem own_congr {t' : TempTuple} (h : own t t' = true) : own t = own t' := by
  obtain ⟨hn, ht⟩ := own_iff.1 h
  funext u
  rw [Bool.eq_iff_iff, own_iff, own_iff, hn, ht]

/-- A list in the order of `temp_order`. -/
def Sorted (env : UpdateEnv) (l : List TempTuple) : Prop := l.Pairwise (fun a b => (tempOrder env a b).isLE = true)

theorem Sorted.own_prefix {ts : List TempTuple} (h : Sorted env (t :: ts)) :
    (t :: ts).Pairwise (fun a b => own t b = true → own t a = true) := by
  have hfirst : ∀ {a b : TempTuple}, (tempOrder env a b).isLE = true → (ownerOrder a b).isLE = true := by
    intro a b hab
    unfold tempOrder thenCompare at hab
    cases ho : ownerOrder a b with
    | lt => rfl
    | eq => rfl
    | gt => simp [ho] at hab
  obtain ⟨ht, hs⟩ := pairwise_cons.1 h
  rw [pairwise_cons]
  refine ⟨fun _ _ _ => own_self t, hs.imp_of_mem (fun {a b} ha _ hab hb => ?_)⟩
  -- between two records of one owner and type there are only such records
  rw [own, ← ownerOrder_eq_iff] at hb ⊢
  have hta := hfirst (ht a ha)
  have hat : (ownerOrder a t).isLE = true := by
    rw [Std.TransCmp.congr_right hb]
    exact hfirst hab
  exact Std.OrientedCmp.isLE_antisymm hta hat

variable {l : List TempTuple}

theorem Sorted.filter (p : TempTuple → Bool) (h : Sorted env l) : Sorted env (l.filter p) :=
  Pairwise.filter p h

theorem Sorted.rdata (h : Sorted env l) (ho : ∀ u ∈ l, own t u = true) :
    (l.map TempTuple.rdata).Pairwise (fun r s => (env.casecompare t.type r s).isLE = true) := by
  rw [pairwise_map]
  refine h.imp_of_mem (fun {a b} ha hb hab => ?_)
  have hab' : ownerOrder a b = .eq := by
    rw [ownerOrder_eq_iff, ← own, ← own_congr (ho a ha)]
    exact ho b hb
  rw [tempOrder, thenCompare, hab', (own_iff.1 (ho a ha)).2] at hab
  exact hab

/-! ### The check of one RRset -/

/-- The check ends without an assertion failure, and it succeeds iff `P` holds. -/
def Decides (x : Exec Unit) (P : Prop) : Prop := (x = .ok () ∧ P) ∨ (x = stop .nxrrset ∧ ¬P)

theorem Decides.bind {x y : Exec Unit} {P Q : Prop} (hx : Decides x P) (hy : Decides y Q) :
    Decides (do x; y) (P ∧ Q) := by
  obtain ⟨rfl, hp⟩ | ⟨rfl, hp⟩ := hx
  · obtain ⟨rfl, hq⟩ | ⟨rfl, hq⟩ := hy
    · exact .inl ⟨rfl, hp, hq⟩
    · exact .inr ⟨rfl, fun h => hq h.2⟩
  · exact .inr ⟨rfl, fun h => hp h.1⟩

theorem Decides.congr {x : Exec Unit} {P Q : Prop} (h : Decides x P) (hpq : P ↔ Q) : Decides x Q := by
  unfold Decides
  rw [← hpq]
  exact h

theorem Decides.ok_iff {x : Exec Unit} {P : Prop} (h : Decides x P) : x = .ok () ↔ P := by
  obtain ⟨rfl, hp⟩ | ⟨rfl, hp⟩ := h
  · exact iff_of_true rfl hp
  · exact iff_of_false (fun h => by cases h) hp

theorem decides_nxrrset {P : Prop} (h : ¬P) : Decides (stop .nxrrset) P := .inr ⟨rfl, h⟩

/-- The two lists are compared in lock step. -/
theorem tempCheckRrset_decides (t : TempTuple) : ∀ us ds : List TempTuple, (∀ u ∈ us, u.op = .exists ∧ own t u = true) →
    (∀ d ∈ ds, d.op = .exists ∧ own t d = true) → Decides (tempCheckRrset env us ds)
      (Forall₂ (fun r s => env.casecompare t.type r s = .eq) (us.map TempTuple.rdata) (ds.map TempTuple.rdata))
  | [], [], _, _ => .inl ⟨rfl, Forall₂.nil⟩
  | [], d :: ds, _, _ => decides_nxrrset (by simp)
  | u :: us, [], _, _ => decides_nxrrset (by simp)
  | u :: us, d :: ds, hu, hd => by
    have ih := tempCheckRrset_decides t us ds (fun x hx => hu x (by simp [hx])) (fun x hx => hd x (by simp [hx]))
    obtain ⟨hopu, hownu⟩ := hu u (by simp)
    obtain ⟨hopd, hownd⟩ := hd d (by simp)
    obtain ⟨hnu, htu⟩ := own_iff.1 hownu
    obtain ⟨hnd, htd⟩ := own_iff.1 hownd
    rw [tempCheckRrset, require_true (by simp [hopu, hopd]), ok_then, require_true (by simp [htu, htd]), ok_then,
      require_true ((Name.equal_iff _ _).2 (hnu.trans hnd.symm)), ok_then, htu, map_cons, map_cons,
      forall₂_cons]
    by_cases hc : env.casecompare t.type u.rdata d.rdata = .eq
    · rw [if_neg (not_not.2 hc)]
      exact ih.congr (by simp [hc])
    · rw [if_pos hc]
      exact decides_nxrrset (fun h => hc h.1)

/-- The records of `t`'s owner and type in a list, and the RRset of the version that `t` belongs to, hold the same rdata
equally often. -/
def Matches (env : UpdateEnv) (z : Zone) (l : List TempTuple) (t : TempTuple) : Prop :=
  t.type ≠ any ∧ ∃ s, findrdataset z t.name t.type (coveredType t.type t.rdata) = some s ∧
    SameCounts (env.casecompare t.type) ((l.filter (own t)).map TempTuple.rdata) s.rdata.1

theorem tempCovers_eq (h : t.Good) : tempCovers t =
    if t.type = any then stop .nxrrset else .ok (coveredType t.type t.rdata) := by
  unfold tempCovers coveredType
  by_cases hs : t.type = rrsig ∨ t.type = sig
  · have hany : t.type ≠ any := by
      obtain ht | ht := hs
      · rw [ht]
        decide
      · rw [ht]
        decide
    rw [if_pos hs, if_pos hs, if_neg hany]
    have h2 := h.2 hs
    cases hr : t.rdata with
    | nil => simp [hr] at h2
    | cons b0 r =>
      cases r with
      | nil => simp [hr] at h2
      | cons b1 r => rfl
  · rw [if_neg hs, if_neg hs]

theorem foldl_tempAppend (name : Name) (type : UInt16) (rs : List Rdata) : ∀ d : List TempTuple,
    rs.foldl (fun d rdata => tempAppend d name type rdata) d = d ++ rs.map (fun r => ⟨.exists, name, type, r⟩) := by
  induction rs with
  | nil => simp
  | cons r rs ih =>
    intro d
    rw [foldl_cons, ih, tempAppend, map_cons, append_assoc, singleton_append]

theorem findrdataset_lower {name name' : Name} (h : name.lower = name'.lower) (z : Zone) (type covers : UInt16) :
    findrdataset z name type covers = findrdataset z name' type covers := by
  unfold findrdataset rrsetKey
  rw [h]

/-- One round of the inner loop. -/
theorem tempCheckType_decides (hc : LawfulCase env.casecompare) {name : Name} (hl : Sorted env l) (hgood : ∀ u ∈ l, u.Good)
    (ht : t ∈ l) (hn : t.name.lower = name.lower) :
    Decides (tempCheckType env z name t (l.filter (own t))) (Matches env z l t) := by
  rw [tempCheckType, tempCovers_eq (hgood t ht)]
  by_cases hany : t.type = any
  · rw [if_pos hany]
    exact decides_nxrrset (fun h => h.1 hany)
  rw [if_neg hany, ok_then, findrdataset_lower hn.symm]
  cases hs : findrdataset z t.name t.type (coveredType t.type t.rdata) with
  | none => exact decides_nxrrset (fun h => by obtain ⟨-, s, hs', -⟩ := h; simp [hs] at hs')
  | some s =>
    simp only
    have := tempOrder_trans hc
    have hct := hc.trans t.type
    rw [foldl_tempAppend, nil_append]
    generalize hd : s.rdata.1.map (fun r => (⟨.exists, name, t.type, r⟩ : TempTuple)) = d
    have hperm := env.qsort.perm (tempOrder env) d
    have hdown : ∀ u ∈ d, u.op = .exists ∧ own t u = true := by
      intro u hu
      rw [← hd] at hu
      obtain ⟨r, -, rfl⟩ := mem_map.1 hu
      exact ⟨rfl, own_iff.2 ⟨hn.symm, rfl⟩⟩
    have hsort : ∀ u ∈ env.qsort.sort (tempOrder env) d, u.op = .exists ∧ own t u = true := fun u hu =>
      hdown u (hperm.mem_iff.1 hu)
    have hgroup : ∀ u ∈ l.filter (own t), u.op = .exists ∧ own t u = true := fun u hu =>
      ⟨(hgood u (mem_of_mem_filter hu)).1, of_mem_filter hu⟩
    have hrdata : (env.qsort.sort (tempOrder env) d).map TempTuple.rdata |>.Perm s.rdata.1 := by
      have h := hperm.map TempTuple.rdata
      rwa [← hd, map_map, show TempTuple.rdata ∘ (fun r => (⟨.exists, name, t.type, r⟩ : TempTuple)) = id from rfl,
        map_id, hd] at h
    refine (tempCheckRrset_decides t _ _ hgroup hsort).congr ?_
    rw [forall₂_iff_count ((hl.filter (own t)).rdata (fun u hu => (hgroup u hu).2))
        (Sorted.rdata (env.qsort.sorted (tempOrder env) d) (fun u hu => (hsort u hu).2)), SameCounts.perm_right hrdata]
    simp [Matches, hany, hs]

/-! ### The loops -/

theorem Matches.covers (hc : LawfulCase env.casecompare) (hz : Filed z)
    (h : Matches env z l t) (hu : u ∈ l) (ho : own t u = true) : coveredType u.type u.rdata = coveredType t.type t.rdata := by
  obtain ⟨-, s, hs, hcounts⟩ := h
  have := hc.trans t.type
  have hmem : u.rdata ∈ (l.filter (own t)).map TempTuple.rdata := mem_map.2 ⟨u, by simp [hu, ho], rfl⟩
  obtain ⟨r, hr, heq⟩ := hcounts.exists_mem hmem
  unfold findrdataset at hs
  split at hs
  · cases hs
  obtain ⟨e, he, rfl⟩ := Option.map_eq_some_iff.1 hs
  have hkey : e.1 = rrsetKey t.name t.type (coveredType t.type t.rdata) := by simpa using find?_some he
  have hfiled := hz e (mem_of_find?_eq_some he) r hr
  rw [hkey] at hfiled
  rw [(own_iff.1 ho).2, hc.covers heq]
  exact hfiled

theorem Matches.own (hc : LawfulCase env.casecompare) (hz : Filed z)
    (h : Matches env z l t) (hu : u ∈ l) (ho : own t u = true) : Matches env z l u := by
  have hcov := h.covers hc hz hu ho
  obtain ⟨hany, s, hs, hcounts⟩ := h
  obtain ⟨hn, ht⟩ := own_iff.1 ho
  refine ⟨by rwa [ht], s, ?_, ?_⟩
  · rw [findrdataset_lower hn, hcov, ht]
    exact hs
  · rw [← own_congr ho, ht]
    exact hcounts

theorem Matches.congr {l' : List TempTuple} (h : (l.filter (Update.own t)).Perm (l'.filter (Update.own t))) :
    Matches env z l t ↔ Matches env z l' t := by
  simp only [Matches, SameCounts.perm_left (h.map TempTuple.rdata)]

/-- The list without the records of its first RRset. -/
theorem matches_cons (hc : LawfulCase env.casecompare) (hz : Filed z) (t : TempTuple) (l : List TempTuple)
    (ht : t ∈ l) : (Matches env z l t ∧ ∀ u ∈ l.filter (fun u => !own t u), Matches env z (l.filter (fun u => !own t u)) u) ↔
      ∀ u ∈ l, Matches env z l u := by
  have hrest : ∀ u ∈ l.filter (fun u => !own t u),
      (Matches env z (l.filter (fun u => !own t u)) u ↔ Matches env z l u) := by
    intro u hu
    have hnot : own t u = false := by simpa using of_mem_filter hu
    apply Matches.congr
    rw [filter_filter]
    apply Perm.of_eq
    apply filter_congr
    intro v _
    rw [Bool.eq_iff_iff]
    simp only [and_eq_true, not_eq_true', and_iff_left_iff_imp]
    intro hv
    -- a record of both groups would make them one
    by_contra htv
    rw [not_eq_false] at htv
    rw [own_congr htv, ← own_congr hv, own_self] at hnot
    cases hnot
  constructor
  · rintro ⟨hm, hr⟩ u hu
    by_cases ho : own t u = true
    · exact hm.own hc hz hu ho
    · have hu' : u ∈ l.filter (fun u => !own t u) := by simpa using ⟨hu, by simpa using ho⟩
      exact (hrest u hu').1 (hr u hu')
  · exact fun h => ⟨h t ht, fun u hu => (hrest u hu).2 (h u (mem_of_mem_filter hu))⟩

theorem tempCheck_cons (z : Zone) (t : TempTuple) (ts : List TempTuple) : tempCheck env z (t :: ts) =
    if findnode z t.name then (do let rest ← tempCheckTypes env z t.name (t :: ts); tempCheck env z rest)
    else stop .nxrrset := by
  rw [tempCheck]
  split
  · split
    · next e he => rw [he]; rfl
    · next rest hr => rw [hr]; rfl
  · rfl

theorem findnode_of_findrdataset {name : Name} {type covers : UInt16} {s : Rdataset}
    (h : findrdataset z name type covers = some s) : findnode z name = true := by
  unfold findrdataset at h
  split at h
  · cases h
  next hk =>
    obtain ⟨e, he, -⟩ := Option.map_eq_some_iff.1 h
    have hkey : e.1 = rrsetKey name type covers := by simpa using find?_some he
    rw [findnode, not_eq_true', isEmpty_eq_false_iff_exists_mem]
    refine ⟨e, ?_⟩
    rw [nodeRrsets, mem_filter, hkey]
    exact ⟨mem_of_find?_eq_some he, by simpa [rrsetKey] using hk⟩

theorem tempCheck_loops (hc : LawfulCase env.casecompare) (hz : Filed z) (n : ℕ) : ∀ l : List TempTuple,
    l.length = n → Sorted env l → (∀ t ∈ l, t.Good) →
    Decides (tempCheck env z l) (∀ t ∈ l, Matches env z l t) ∧
      ∀ name, Decides (do let rest ← tempCheckTypes env z name l; tempCheck env z rest) (∀ t ∈ l, Matches env z l t) := by
  induction n using Nat.strong_induction_on with
  | _ n ih =>
    intro l hn hl hgood
    cases l with
    | nil =>
      refine ⟨.inl ⟨by rw [tempCheck], by simp⟩, fun name => .inl ⟨?_, by simp⟩⟩
      rw [tempCheckTypes, ok_then, tempCheck]
    | cons t ts =>
      -- the inner loop at a record of its owner
      have hown : ∀ name, t.name.equal name = true →
          Decides (do let rest ← tempCheckTypes env z name (t :: ts); tempCheck env z rest)
            (∀ u ∈ t :: ts, Matches env z (t :: ts) u) := by
        intro name hname
        have hlower := (Name.equal_iff _ _).1 hname
        have hfun : (fun u : TempTuple => u.name.equal name && u.type == t.type) = own t := by
          funext u
          rw [Bool.eq_iff_iff, own_iff, and_eq_true, beq_iff_eq, Name.equal_iff, hlower]
        have hprefix := hl.own_prefix
        have htake : t :: ts.takeWhile (own t) = (t :: ts).filter (own t) := by
          rw [← takeWhile_eq_filter hprefix, takeWhile_cons_of_pos (own_self t)]
        have hdrop : ts.dropWhile (own t) = (t :: ts).filter (fun u => !own t u) := by
          rw [← dropWhile_eq_filter hprefix, dropWhile_cons_of_pos (own_self t)]
        have hlen : ((t :: ts).filter (fun u => !own t u)).length < n := by
          have h := (dropWhile_sublist (own t) (l := ts)).length_le
          rw [hdrop] at h
          rw [← hn, length_cons]
          omega
        have hrest := (ih _ hlen _ rfl (hl.filter _) (fun u hu => hgood u (mem_of_mem_filter hu))).2 name
        have hround := tempCheckType_decides hc (z := z) hl hgood (mem_cons_self ..) hlower
        rw [tempCheckTypes, if_pos hname, hfun, htake, hdrop, bind_assoc]
        exact (hround.bind hrest).congr (matches_cons hc hz t _ (mem_cons_self ..))
      have hcheck : Decides (tempCheck env z (t :: ts)) (∀ u ∈ t :: ts, Matches env z (t :: ts) u) := by
        rw [tempCheck_cons]
        split
        · exact hown t.name ((Name.equal_iff _ _).2 rfl)
        next hnode =>
          apply decides_nxrrset
          intro h
          obtain ⟨-, s, hs, -⟩ := h t (by simp)
          exact hnode (findnode_of_findrdataset hs)
      refine ⟨hcheck, fun name => ?_⟩
      by_cases hname : t.name.equal name = true
      · exact hown name hname
      · rw [tempCheckTypes, if_neg hname, ok_then]
        exact hcheck

/-! ### The section -/

/-- A prerequisite that asks for a record with this rdata, as a message may have it: the zone is neither of class ANY nor
of class NONE, and the rdata of a signature starts with a type. -/
structure ZonePrereq (env : UpdateEnv) (u : UpdateRr) : Prop where
  ttl : u.ttl = 0
  inZone : u.name.issubdomain env.origin = true
  zoneClass : u.updateClass = env.rdclass
  notAny : u.updateClass ≠ classAny
  notNone : u.updateClass ≠ classNone
  good : u.type = rrsig ∨ u.type = sig → 2 ≤ u.rdata.length

/-- The tuple of a prerequisite. -/
def tempOf (u : UpdateRr) : TempTuple := ⟨.exists, u.name, u.type, u.rdata⟩

theorem foldlM_prereqRr (ver : Zone) : ∀ (us : List UpdateRr) (temp : List TempTuple), (∀ u ∈ us, ZonePrereq env u) →
    us.foldlM (prereqRr env ver) temp = .ok (temp ++ us.map tempOf)
  | [], temp, _ => by
    rw [map_nil, append_nil]
    rfl
  | u :: us, temp, h => by
    have hu := h u (by simp)
    have hone : prereqRr env ver temp u = .ok (temp ++ [tempOf u]) := by
      unfold prereqRr
      rw [if_neg (by simp [hu.ttl]), if_neg (by simp [hu.inZone]), if_neg hu.notAny, if_neg hu.notNone, if_pos hu.zoneClass]
      rfl
    rw [foldlM_cons, hone, ok_then, foldlM_prereqRr ver us _ (fun v hv => h v (by simp [hv])), append_assoc]
    rfl

variable {us : List UpdateRr}

theorem prereqSection_decides (hc : LawfulCase env.casecompare) (hver : Filed ver) (hus : ∀ u ∈ us, ZonePrereq env u) :
    Decides (prereqSection env ver us) (∀ t ∈ us.map tempOf, Matches env ver (us.map tempOf) t) := by
  rw [prereqSection, foldlM_prereqRr ver us [] hus, ok_then, nil_append]
  split
  · next hnil => exact .inl ⟨rfl, by simp [hnil]⟩
  have := tempOrder_trans hc
  have hperm := env.qsort.perm (tempOrder env) (us.map tempOf)
  have hgood : ∀ t ∈ env.qsort.sort (tempOrder env) (us.map tempOf), t.Good := by
    intro t ht
    obtain ⟨u, hu, rfl⟩ := mem_map.1 (hperm.mem_iff.1 ht)
    exact ⟨rfl, (hus u hu).good⟩
  refine (tempCheck_loops hc hver _ _ rfl (env.qsort.sorted _ _) hgood).1.congr ?_
  simp only [hperm.mem_iff, Matches.congr (hperm.filter _)]

/-- The records of the section that are of the RRset of `u`. -/
def listed (us : List UpdateRr) (u : UpdateRr) : List UpdateRr :=
  us.filter (fun v => v.name.equal u.name && v.type == u.type && coveredType v.type v.rdata == coveredType u.type u.rdata)

/-- The rdata of the RRset of `u` in the version. -/
def rrsetOf (ver : Zone) (u : UpdateRr) : List Rdata :=
  (ver.find (rrsetKey u.name u.type (coveredType u.type u.rdata))).elim [] (fun s => s.rdata.1)

/-- Two lists of rdata are the same sets, up to `cmp`. -/
def SameSet (cmp : Rdata → Rdata → Ordering) (rs ss : List Rdata) : Prop :=
  (∀ r ∈ rs, ∃ s ∈ ss, cmp r s = .eq) ∧ ∀ s ∈ ss, ∃ r ∈ rs, cmp s r = .eq

/-- Every RRset that the section names is in the version the set of the listed rdata. -/
def RrsetsEqual (env : UpdateEnv) (ver : Zone) (us : List UpdateRr) : Prop :=
  ∀ u ∈ us, SameSet (env.casecompare u.type) ((listed us u).map UpdateRr.rdata) (rrsetOf ver u)

/-- The section asks for the RRset of `u` in a way that the code understands: it is in the main tree, the records of its
owner and type all belong to it, and each rdata is listed as often as it is there. -/
structure Plain (env : UpdateEnv) (ver : Zone) (us : List UpdateRr) (u : UpdateRr) : Prop where
  type : u.type ≠ any
  main : (rrsetKey u.name u.type (coveredType u.type u.rdata)).isNsec3 = false
  covers : ∀ v ∈ us, v.name.equal u.name = true → v.type = u.type →
    coveredType v.type v.rdata = coveredType u.type u.rdata
  counts : SameCounts (env.casecompare u.type) ((listed us u).map UpdateRr.rdata) (rrsetOf ver u)

theorem map_filter_own (us : List UpdateRr) (u : UpdateRr) : ((us.map tempOf).filter (own (tempOf u))).map TempTuple.rdata =
    (us.filter (fun v => v.name.equal u.name && v.type == u.type)).map UpdateRr.rdata := by
  rw [filter_map, map_map]
  rfl

theorem matches_iff_plain (hc : LawfulCase env.casecompare) (hver : Filed ver)
    {u : UpdateRr} (hu : u ∈ us) : Matches env ver (us.map tempOf) (tempOf u) ↔ Plain env ver us u := by
  have hlisted : (∀ v ∈ us, v.name.equal u.name = true → v.type = u.type →
      coveredType v.type v.rdata = coveredType u.type u.rdata) →
      listed us u = us.filter (fun v => v.name.equal u.name && v.type == u.type) := by
    intro h
    apply filter_congr
    intro v hv
    rw [Bool.eq_iff_iff]
    simp only [and_eq_true, beq_iff_eq, and_iff_left_iff_imp]
    exact fun hvu => h v hv hvu.1 hvu.2
  constructor
  · intro h
    have hcovers : ∀ v ∈ us, v.name.equal u.name = true → v.type = u.type →
        coveredType v.type v.rdata = coveredType u.type u.rdata := fun v hv hn ht =>
      h.covers hc hver (mem_map.2 ⟨v, hv, rfl⟩) (own_iff.2 ⟨(Name.equal_iff _ _).1 hn, ht⟩)
    obtain ⟨hany, s, hs, hcounts⟩ := h
    unfold findrdataset at hs
    split at hs
    · cases hs
    next hmain =>
      refine ⟨hany, eq_false_of_ne_true hmain, hcovers, ?_⟩
      rw [map_filter_own] at hcounts
      rw [hlisted hcovers, rrsetOf]
      rw [show (ver.find (rrsetKey u.name u.type (coveredType u.type u.rdata))) = some s from hs]
      exact hcounts
  · intro h
    have := hc.trans u.type
    have hmem : u.rdata ∈ (listed us u).map UpdateRr.rdata :=
      mem_map.2 ⟨u, by simp [listed, hu, Name.equal_iff], rfl⟩
    obtain ⟨r, hr, -⟩ := h.counts.exists_mem hmem
    have hcounts := h.counts
    rw [hlisted h.covers, rrsetOf] at hcounts
    unfold rrsetOf at hr
    cases hs : ver.find (rrsetKey u.name u.type (coveredType u.type u.rdata)) with
    | none => simp [hs] at hr
    | some s =>
      refine ⟨h.type, s, ?_, ?_⟩
      · rw [findrdataset, if_neg (by simpa [tempOf] using h.main)]
        exact hs
      · rw [map_filter_own]
        rw [hs] at hcounts
        exact hcounts

theorem sameSet_of_counts {cmp : Rdata → Rdata → Ordering} (ht : Std.TransCmp cmp) {rs ss : List Rdata}
    (h : SameCounts cmp rs ss) : SameSet cmp rs ss :=
  ⟨fun _ hr => h.exists_mem hr, fun _ hs => SameCounts.exists_mem (fun x => (h x).symm) hs⟩

/-- **Prerequisites.**  For records of the class of the zone the section succeeds or fails with `DNS_R_NXRRSET`; the
order of the records does not matter; and it succeeds exactly when every RRset that is named has the listed rdata, iff
this does not happen for RRsets that the code does not understand. -/
theorem prerequisites (env : UpdateEnv) (hc : LawfulCase env.casecompare) (ver : Zone) (hver : Filed ver)
    (us : List UpdateRr) (hus : ∀ u ∈ us, ZonePrereq env u) :
    (prereqSection env ver us = .ok () ∨ prereqSection env ver us = stop .nxrrset) ∧
    (∀ us', us'.Perm us → prereqSection env ver us' = prereqSection env ver us) ∧
    ((prereqSection env ver us = .ok () ↔ RrsetsEqual env ver us) ↔
      (RrsetsEqual env ver us → ∀ u ∈ us, Plain env ver us u)) := by
  have hdec := prereqSection_decides hc hver hus
  refine ⟨hdec.imp And.left And.left, fun us' hperm => ?_, ?_⟩
  · have hdec' := prereqSection_decides hc hver (fun u hu => hus u (hperm.mem_iff.1 hu))
    have hsame := hdec'.congr (show _ ↔ ∀ t ∈ us.map tempOf, Matches env ver (us.map tempOf) t by
      simp only [(hperm.map tempOf).mem_iff, Matches.congr ((hperm.map tempOf).filter _)])
    obtain ⟨h, hp⟩ | ⟨h, hp⟩ := hdec
    · rw [h, hsame.ok_iff]
      exact hp
    obtain ⟨-, hp'⟩ | ⟨h', -⟩ := hsame
    · exact absurd hp' hp
    · rw [h, h']
  · have hok : prereqSection env ver us = .ok () ↔ ∀ u ∈ us, Plain env ver us u := by
      rw [hdec.ok_iff, forall_mem_map]
      exact forall₂_congr (fun u hu => matches_iff_plain hc hver hu)
    have hset : (∀ u ∈ us, Plain env ver us u) → RrsetsEqual env ver us := fun h u hu =>
      sameSet_of_counts (hc.trans u.type) (h u hu).counts
    rw [hok]
    exact ⟨fun h => h.2, fun h => ⟨hset, h⟩⟩

/-! ### The comparison of the development -/

def caseTypeOf (type : UInt16) : Rdata.CaseType :=
  match type.toNat with
  | 6 => .base .soa
  | 11 => .base .wks
  | 16 => .base .txt
  | 24 => .sig
  | 26 => .base .px
  | 29 => .base .loc
  | 30 => .base .nxt
  | 33 => .base .srv
  | 35 => .base .naptr
  | 38 => .base .a6
  | 42 => .base .apl
  | 45 => .base .ipseckey
  | 46 => .base .rrsig
  | 47 => .base .nsec
  | 50 => .base .nsec3
  | 55 => .base .hip
  | 256 => .base .uri
  | code => .base (.unknown code)

/-- `dns_rdata_casecompare` for the types of the development, as an order of all byte strings. -/
def casecompareOf (type : UInt16) (r s : Rdata) : Ordering := Rdata.caseOrder (caseTypeOf type) r s

theorem casecompareOf_lawful : LawfulCase casecompareOf where
  trans := fun type => Rdata.caseOrder_trans (caseTypeOf type)
  covers := by
    intro type r s h
    unfold coveredType
    by_cases hs : type = rrsig ∨ type = sig
    · rw [if_pos hs, if_pos hs]
      have ht : caseTypeOf type = .sig ∨ caseTypeOf type = .base .rrsig := by
        obtain rfl | rfl := hs
        · exact .inr rfl
        · exact .inl rfl
      rw [typeCovered, typeCovered, Rdata.caseOrder_signature ht h 0 (by omega), Rdata.caseOrder_signature ht h 1 (by omega)]
    · rw [if_neg hs, if_neg hs]

/-- A zone at the root, with the comparison of the development. -/
def prereqEnv : UpdateEnv where
  ops := ⟨fun _ r s => Ord.compare r s, fun _ => false⟩
  qsort := .mergeSort
  rdclass := 1
  origin := ⟨[[]]⟩
  privatetype := 65534
  casecompare := casecompareOf
  checknames := fun _ _ _ => true

def prereqOf (type : UInt16) (rdata : Rdata) : UpdateRr := ⟨⟨[[97], []]⟩, 1, 0, type, 0, rdata⟩

/-- The version with one RRset of `a.` for each type, covered type and rdata. -/
def versionOf (rrsets : List (UInt16 × UInt16 × Rdata)) : Zone :=
  rrsets.map (fun e => (⟨⟨[[97], []]⟩, ⟨e.1, e.2.1⟩⟩, ⟨0, ⟨[e.2.2], by simp⟩⟩))

theorem prereqOf_good (type : UInt16) {rdata : Rdata} (h : 2 ≤ rdata.length) : ZonePrereq prereqEnv (prereqOf type rdata) :=
  ⟨rfl, rfl, rfl, show (1 : UInt16) ≠ 255 by decide, show (1 : UInt16) ≠ 254 by decide, fun _ => h⟩

def rrsigFor (covers : UInt8) : Rdata := 0 :: covers :: (replicate 16 0 ++ [0, 1])

instance (cmp : Rdata → Rdata → Ordering) (rs ss : List Rdata) : Decidable (SameSet cmp rs ss) :=
  inferInstanceAs (Decidable ((∀ r ∈ rs, ∃ s ∈ ss, cmp r s = .eq) ∧ ∀ s ∈ ss, ∃ r ∈ rs, cmp s r = .eq))

instance (ver : Zone) (us : List UpdateRr) : Decidable (RrsetsEqual env ver us) :=
  inferInstanceAs (Decidable (∀ u ∈ us, SameSet (env.casecompare u.type) ((listed us u).map UpdateRr.rdata) (rrsetOf ver u)))

instance (z : Zone) : Decidable (Filed z) :=
  inferInstanceAs (Decidable (∀ e ∈ z, ∀ r ∈ e.2.rdata.1, coveredType e.1.type.base r = e.1.type.covers))

theorem refused_of_not_plain (hver : Filed ver) (hus : ∀ u ∈ us, ZonePrereq prereqEnv u)
    {u : UpdateRr} (hu : u ∈ us) (hnot : ¬Plain prereqEnv ver us u) : prereqSection prereqEnv ver us = stop .nxrrset := by
  have hlaw : LawfulCase prereqEnv.casecompare := casecompareOf_lawful
  obtain ⟨-, hall⟩ | ⟨hstop, -⟩ := prereqSection_decides hlaw hver hus
  · exact absurd ((matches_iff_plain hlaw hver hu).1 (hall (tempOf u) (mem_map.2 ⟨u, hu, rfl⟩))) hnot
  · exact hstop

/-- The sets are equal, and the result is `DNS_R_NXRRSET`: a repeated record, the RRSIGs of two types, an NSEC3 record. -/
theorem prerequisites_refused :
    (RrsetsEqual prereqEnv (versionOf [(1, 0, [10, 0, 0, 1])]) [prereqOf 1 [10, 0, 0, 1], prereqOf 1 [10, 0, 0, 1]] ∧
      prereqSection prereqEnv (versionOf [(1, 0, [10, 0, 0, 1])]) [prereqOf 1 [10, 0, 0, 1], prereqOf 1 [10, 0, 0, 1]] =
        stop .nxrrset) ∧ (RrsetsEqual prereqEnv (versionOf [(46, 1, rrsigFor 1), (46, 15, rrsigFor 15)])
        [prereqOf 46 (rrsigFor 1), prereqOf 46 (rrsigFor 15)] ∧
      prereqSection prereqEnv (versionOf [(46, 1, rrsigFor 1), (46, 15, rrsigFor 15)])
        [prereqOf 46 (rrsigFor 1), prereqOf 46 (rrsigFor 15)] = stop .nxrrset) ∧
    (RrsetsEqual prereqEnv (versionOf [(50, 0, [1, 0, 0, 0, 0, 1, 7, 0, 1, 0x40])])
        [prereqOf 50 [1, 0, 0, 0, 0, 1, 7, 0, 1, 0x40]] ∧
      prereqSection prereqEnv (versionOf [(50, 0, [1, 0, 0, 0, 0, 1, 7, 0, 1, 0x40])])
        [prereqOf 50 [1, 0, 0, 0, 0, 1, 7, 0, 1, 0x40]] = stop .nxrrset) := by
  refine ⟨⟨by decide, refused_of_not_plain (by decide) ?_ (mem_cons_self ..) (fun h => ?_)⟩,
    ⟨by decide, refused_of_not_plain (by decide) ?_ (mem_cons_self ..) (fun h => ?_)⟩,
    by decide, refused_of_not_plain (by decide) ?_ (mem_cons_self ..) (fun h => ?_)⟩
  · simp only [mem_cons, not_mem_nil, or_false, or_self, forall_eq]
    exact prereqOf_good 1 (by decide)
  · exact absurd (h.counts [10, 0, 0, 1]) (by decide)
  · simp only [mem_cons, not_mem_nil, or_false, forall_eq_or_imp, forall_eq]
    exact ⟨prereqOf_good 46 (by decide), prereqOf_good 46 (by decide)⟩
  · exact absurd (h.covers (prereqOf 46 (rrsigFor 15)) (by simp) rfl rfl) (by decide)
  · simp only [mem_cons, not_mem_nil, or_false, forall_eq]
    exact prereqOf_good 50 (by decide)
  · exact absurd h.main (by decide)

/-- Two addresses and a text of `a.`, and an address of `b.`. -/
def twoNames : Zone :=
  [(⟨⟨[[97], []]⟩, ⟨1, 0⟩⟩, ⟨0, ⟨[[10, 0, 0, 1], [10, 0, 0, 2]], by simp⟩⟩),
    (⟨⟨[[97], []]⟩, ⟨16, 0⟩⟩, ⟨0, ⟨[[1, 120]], by simp⟩⟩), (⟨⟨[[98], []]⟩, ⟨1, 0⟩⟩, ⟨0, ⟨[[10, 0, 0, 3]], by simp⟩⟩)]

/-- All of them in another order. -/
def twoNamesPrereqs : List UpdateRr :=
  [prereqOf 1 [10, 0, 0, 2], ⟨⟨[[98], []]⟩, 1, 0, 1, 0, [10, 0, 0, 3]⟩, prereqOf 16 [1, 120], prereqOf 1 [10, 0, 0, 1]]

theorem prerequisites_satisfied : prereqSection prereqEnv twoNames twoNamesPrereqs = .ok () ∧
    prereqSection prereqEnv twoNames twoNamesPrereqs.reverse = .ok () := by
  have hlaw : LawfulCase prereqEnv.casecompare := casecompareOf_lawful
  have hgood : ∀ u ∈ twoNamesPrereqs, ZonePrereq prereqEnv u := by
    simp only [twoNamesPrereqs, mem_cons, not_mem_nil, or_false, forall_eq_or_imp, forall_eq]
    exact ⟨prereqOf_good 1 (by decide), ⟨rfl, rfl, rfl, by decide, by decide, fun _ => by decide⟩, prereqOf_good 16 (by decide),
      prereqOf_good 1 (by decide)⟩
  have hcounts : ∀ {u : UpdateRr}, ((listed twoNamesPrereqs u).map UpdateRr.rdata).Perm (rrsetOf twoNames u) →
      SameCounts (prereqEnv.casecompare u.type) ((listed twoNamesPrereqs u).map UpdateRr.rdata) (rrsetOf twoNames u) :=
    fun h r => h.countP_eq _
  have hplain : ∀ u ∈ twoNamesPrereqs, Plain prereqEnv twoNames twoNamesPrereqs u := by
    simp only [twoNamesPrereqs, mem_cons, not_mem_nil, or_false, forall_eq_or_imp, forall_eq]
    exact ⟨⟨by decide, by decide, by decide, hcounts (by decide)⟩, ⟨by decide, by decide, by decide, hcounts (by decide)⟩,
      ⟨by decide, by decide, by decide, hcounts (by decide)⟩, ⟨by decide, by decide, by decide, hcounts (by decide)⟩⟩
  obtain ⟨-, horder, hiff⟩ := prerequisites prereqEnv hlaw twoNames (by decide) twoNamesPrereqs hgood
  have hok := (hiff.2 (fun _ => hplain)).2 (by decide)
  exact ⟨hok, (horder _ (reverse_perm _)).trans hok⟩

end Bind9.Update
