import Bind9.Diff
import Bind9.Region
import Bind9.Rbtdb
import Mathlib.Data.List.SplitBy

/-! # What a version of a zone holds, and how a diff changes it

`diff_apply` of `lib/dns/diff.c` with `addrdataset` and `subtractrdataset` of `lib/dns/rbtdb.c`, for one version of a
zone: its contents are a list of rdatasets, each under the owner in lower case and the type.  `Rbtdb` keeps several
versions side by side; here one of them is changed.  Memory is always there.

The rdatasets of type NSEC3 and their signatures have a tree of their own in the database; the type says which tree an
rdataset is in. -/

namespace Bind9.ZoneDb

open List

open Diff Rbtdb

def ns : UInt16 := 2

/-- `rdata_covers` of `lib/dns/diff.c`. -/
def rdataCovers (type : UInt16) (r : Rdata) : UInt16 := if type = rrsig then typeCovered r else 0

/-- Where an rdataset is kept. -/
structure Key where
  name : Name
  type : RdType
deriving DecidableEq

/-- The rdatasets of the NSEC3 tree. -/
def Key.isNsec3 (k : Key) : Bool := k.type.base == nsec3 || k.type.covers == nsec3

/-- The rdataset that a record with this owner belongs to. -/
def rrKey (name : Name) (type : UInt16) (rdata : Rdata) : Key := ⟨name.lower, type, rdataCovers type rdata⟩

/-- The contents of a version. -/
abbrev Zone := List (Key × Rdataset)

/-! ### The rdatasets of a zone -/

variable (z : Zone)

def Zone.find (k : Key) : Option Rdataset := (z.find? (fun e => decide (e.1 = k))).map Prod.snd

/-- The zone without the rdataset under a key. -/
def Zone.erase (k : Key) : Zone := z.filter (fun e => decide (e.1 ≠ k))

def Zone.put (k : Key) (s : Rdataset) : Zone := (k, s) :: z.erase k

@[simp] theorem Zone.find_put_self (k : Key) (s : Rdataset) : (z.put k s).find k = some s := by
  simp [Zone.find, Zone.put]

theorem Zone.find_erase_ne {z : Zone} {k k' : Key} (h : k' ≠ k) : (z.erase k).find k' = z.find k' := by
  unfold Zone.find Zone.erase
  induction z with
  | nil => rfl
  | cons e z ih =>
    by_cases he : e.1 = k
    · have hk : e.1 ≠ k' := fun hk => h (hk.symm.trans he)
      rw [filter_cons_of_neg (by simpa using he), find?_cons_of_neg (by simpa using hk)]
      exact ih
    rw [filter_cons_of_pos (by simpa using he)]
    by_cases hk : e.1 = k'
    · rw [find?_cons_of_pos (by simpa using hk), find?_cons_of_pos (by simpa using hk)]
    · rw [find?_cons_of_neg (by simpa using hk), find?_cons_of_neg (by simpa using hk)]
      exact ih

@[simp] theorem Zone.find_erase_self (k : Key) : (z.erase k).find k = none := by
  simp [Zone.find, Zone.erase]

theorem Zone.find_put_ne {z : Zone} {k k' : Key} (s : Rdataset) (h : k' ≠ k) : (z.put k s).find k' = z.find k' := by
  rw [← z.find_erase_ne h]
  have hk : ¬k = k' := fun hk => h hk.symm
  simp [Zone.find, Zone.put, hk]

/-! ### The database -/

/-- What the code takes from outside: the generated code, `qsort`, and the class of the database. -/
structure Env where
  ops : RdataOps
  qsort : Qsort
  rdclass : UInt16

/-- The loop of `dns_rdataslab_fromrdataset` that removes duplicates: the last one of a run stays. -/
def dedup {α : Type} (cmp : α → α → Ordering) : List α → List α
  | [] => []
  | [a] => [a]
  | a :: b :: l => if cmp a b = .eq then dedup cmp (b :: l) else a :: dedup cmp (b :: l)

def fromrdataset (env : Env) (type : UInt16) (rdata : List Rdata) : Exec Slab :=
  let items := dedup (env.ops.compare type) (env.qsort.sort (env.ops.compare type) rdata)
  if 0xffff < rdata.length then stop .nospace
  else if 1 < items.length ∧ env.ops.issingleton type then stop .singleton
  else if h : items = [] then stop .failure
  else .ok ⟨items, h⟩

def cnameAndOtherData (k : Key) : Bool :=
  !k.isNsec3 && (z.find ⟨k.name, .cname⟩).isSome &&
    z.any (fun e => decide (e.1.name = k.name) && !e.1.isNsec3 && decide (e.1.type ≠ .cname) && e.1.type.isOther)

/-- The end of `add`. -/
def finish (k : Key) : Zone × Result := (z, if cnameAndOtherData z k then .cnameandother else .success)

def addrdataset (env : Env) (z : Zone) (k : Key) (ttl : ℕ) (rdata : Slab) (o : AddOptions) : Zone × Result :=
  match z.find k with
  | none => finish (z.put k ⟨ttl, rdata⟩) k
  | some old =>
    match mergeRdata env.ops true o k.type old.ttl ttl old.rdata rdata with
    | .error r => (z, r)
    | .ok merged => finish (z.put k ⟨ttl, merged⟩) k

/-- `subtractrdataset` with `DNS_DBSUB_EXACT`. -/
def subtractrdataset (env : Env) (z : Zone) (k : Key) (ttl : ℕ) (rdata : Slab) : Zone × Result :=
  match z.find k with
  | none => (z, .notexact)
  | some old =>
    if ttl ≠ old.ttl then (z, .notexact)
    else
      match Slab.subtract env.ops k.type.base true old.rdata rdata true with
      | .ok rest => (z.put k ⟨old.ttl, rest⟩, .success)
      | .error .nxrrset => (z.erase k, .nxrrset)
      | .error r => (z, r)

/-! ### Applying a diff -/

def tupleKey (t : DiffTuple) : Key := rrKey t.name t.type t.rdata

def adds (t : DiffTuple) : Bool := t.op == .add || t.op == .addresign

/-- The condition under which `diff_apply` collects two tuples in one rdatalist. -/
def together (t u : DiffTuple) : Bool :=
  t.name.equal u.name && t.op == u.op && t.type == u.type && rdataCovers t.type t.rdata == rdataCovers u.type u.rdata

/-- The `switch` of `diff_apply`. -/
def applyOp (env : Env) (z : Zone) (t : DiffTuple) (slab : Slab) : Zone × Result :=
  if adds t then addrdataset env z (tupleKey t) t.ttl slab ⟨true, true, true⟩
  else subtractrdataset env z (tupleKey t) t.ttl slab

/-- The results that `diff_apply` goes on with. -/
def Fine (r : Result) : Prop := r = .success ∨ r = .unchanged ∨ r = .nxrrset

instance (r : Result) : Decidable (Fine r) := inferInstanceAs (Decidable (_ ∨ _ ∨ _))

/-- The body of the loop of `diff_apply`, for the tuples collected in one rdatalist: class and TTL are those of the
first one. -/
def applyGroup (env : Env) (z : Zone) : Tuples → Exec Zone
  | [] => .ok z
  | t :: ts => do
    require (t.rdclass == env.rdclass)
    let slab ← fromrdataset env t.type ((t :: ts).map DiffTuple.rdata)
    let p := applyOp env z t slab
    if Fine p.2 then pure p.1 else stop p.2

/-- `diff_apply`; nobody looks at the version when it fails. -/
def diffApply (env : Env) (z : Zone) (diff : Tuples) : Exec Zone :=
  (diff.splitBy together).foldlM (applyGroup env) z

end Bind9.ZoneDb
