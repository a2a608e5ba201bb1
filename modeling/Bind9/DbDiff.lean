import Bind9.Diff
import Bind9.Region

/-! # The difference of two databases

`dns_db_diffx` in `lib/dns/journal.c`: two iterators walk the names of the two databases in step, and the records of a
name that both have are sorted and merged.  What a database version holds is a value of `Contents`: a tree of names
with their rdatasets and a second tree for the NSEC3 records, as the database keeps them, each in the order of its
iterator.  Memory is always there.

`dns_rdata_compare` dispatches on the type through generated code; it is the parameter `ops`. -/

namespace Bind9.DbDiff

open Diff

/-- `dns_rdatatype_issig` of the types SIG and RRSIG. -/
def issig (type : UInt16) : Bool := type == 24 || type == 46

/-- `dns_rdata_covers` for signatures; other rdatasets have zero here. -/
def rdataCovers (type : UInt16) (r : Rdata) : ℕ :=
  if issig type then (typeCovered r).toNat else 0

/-- What the code relies on in `dns_rdata_compare`: it is an order, and signatures that compare equal cover one
type. -/
structure Lawful (ops : RdataOps) : Prop where
  trans : ∀ type, Std.TransCmp (ops.compare type)
  covers : ∀ type a b, ops.compare type a b = .eq → rdataCovers type a = rdataCovers type b

variable (ops : RdataOps)

/-! ### What a database holds -/

structure Rdataset where
  rdclass : UInt16
  type : UInt16
  covers : ℕ
  ttl : ℕ
  rdata : List Rdata
  distinct : rdata.Pairwise (fun a b => ops.compare type a b ≠ .eq)
  covered : ∀ r ∈ rdata, rdataCovers type r = covers

def Rdataset.isNsec3 {ops : RdataOps} (s : Rdataset ops) : Prop := s.type = nsec3 ∨ s.covers = nsec3.toNat

/-- A name and its rdatasets. -/
structure Node where
  name : Name
  rdatasets : List (Rdataset ops)
  types : rdatasets.Pairwise (fun s t => ¬(s.type = t.type ∧ s.covers = t.covers))

/-- The names of a tree, in the order of `dns_dbiterator_first` and `dns_dbiterator_next`. -/
structure Tree where
  nodes : List (Node ops)
  sorted : nodes.Pairwise (fun m n => m.name.compare n.name < 0)

/-- What a version of a database holds. -/
structure Contents where
  tree : Tree ops
  nsec3 : Tree ops
  plain : ∀ n ∈ tree.nodes, ∀ s ∈ n.rdatasets, ¬s.isNsec3
  chain : ∀ n ∈ nsec3.nodes, ∀ s ∈ n.rdatasets, s.isNsec3

variable {ops}

/-! ### The code -/

def getNameDiff (op : DiffOp) (n : Node ops) : Tuples :=
  n.rdatasets.flatMap (fun s => s.rdata.map (fun r => ⟨op, n.name, s.ttl, s.rdclass, s.type, r⟩))

variable (ops) in
/-- `rdata_order`; `dns_rdata_compare` looks at the class first. -/
def rdataOrder (a b : DiffTuple) : Ordering :=
  if b.type ≠ a.type then compare b.type.toNat a.type.toNat
  else if a.rdclass ≠ b.rdclass then compare a.rdclass.toNat b.rdclass.toNat
  else ops.compare a.type a.rdata b.rdata

variable (ops) in
/-- The loop of `dns_diff_subtract`; `r` is the diff that tuples are appended to. -/
def subtractLoop (r : Tuples) : Tuples → Tuples → Tuples
  | [], [] => r
  | p0 :: d0, [] => subtractLoop (r ++ [p0]) d0 []
  | [], p1 :: d1 => subtractLoop (r ++ [p1]) [] d1
  | p0 :: d0, p1 :: d1 =>
    match rdataOrder ops p0 p1 with
    | .lt => subtractLoop (r ++ [p0]) d0 (p1 :: d1)
    | .gt => subtractLoop (r ++ [p1]) (p0 :: d0) d1
    | .eq => subtractLoop (if p0.ttl ≠ p1.ttl then r ++ [p0] ++ [p1] else r) d0 d1
termination_by d0 d1 => d0.length + d1.length

variable (ops) in
/-- `dns_diff_subtract`; the loop ends when both diffs are empty. -/
def subtract (q : Qsort) (d0 d1 r : Tuples) : Tuples :=
  subtractLoop ops r (q.sort (rdataOrder ops) d0) (q.sort (rdataOrder ops) d1)

/-- What `diff_namespace` keeps for one of the databases: the nodes its iterator has not passed, `have`, `fixname` and
`diff`. -/
structure Side (ops : RdataOps) where
  dbit : List (Node ops)
  have_ : Bool
  fixname : Name
  diff : Tuples

/-- The first loop over `i`: fetch the next name if there is none. -/
def Side.fetch (op : DiffOp) (s : Side ops) : Side ops :=
  match s.have_, s.dbit with
  | false, n :: dbit => ⟨dbit, true, n.name, s.diff ++ getNameDiff op n⟩
  | _, _ => s

/-- After `ISC_LIST_APPENDLIST` or `dns_diff_subtract`. -/
def Side.taken (s : Side ops) : Side ops := { s with have_ := false, diff := [] }

/-- What is left to do on one side. -/
def Side.todo (s : Side ops) : ℕ := s.dbit.length + s.have_.toNat

theorem Side.fetch_todo (op : DiffOp) (s : Side ops) : (s.fetch op).todo = s.todo := by
  unfold Side.fetch
  split
  next hh hd => simp [Side.todo, hh, hd]
  next => rfl

theorem Side.taken_todo {s : Side ops} (h : s.have_ = true) : s.taken.todo < s.todo := by
  simp [Side.taken, Side.todo, h]

/-- The loop of `diff_namespace`: the two sides and `resultdiff` at its end. -/
def namespaceLoop (q : Qsort) (a b : Side ops) (resultdiff : Tuples) :
    Exec (Side ops × Side ops × Tuples) :=
  let a' := a.fetch .add
  let b' := b.fetch .del
  match _ha : a'.have_, _hb : b'.have_ with
  | false, false => do
    require (decide (a'.diff = []))
    require (decide (b'.diff = []))
    pure (a', b', resultdiff)
  | true, false => namespaceLoop q a'.taken b' (resultdiff ++ a'.diff)
  | false, true => namespaceLoop q a' b'.taken (resultdiff ++ b'.diff)
  | true, true =>
    match compare (a'.fixname.compare b'.fixname) 0 with
    | .lt => namespaceLoop q a'.taken b' (resultdiff ++ a'.diff)
    | .gt => namespaceLoop q a' b'.taken (resultdiff ++ b'.diff)
    | .eq => namespaceLoop q a'.taken b'.taken (subtract ops q a'.diff b'.diff resultdiff)
termination_by a.todo + b.todo
decreasing_by
  all_goals
    have h1 := Side.fetch_todo .add a
    have h2 := Side.fetch_todo .del b
    try have h3 : (a.fetch .add).taken.todo < (a.fetch .add).todo := Side.taken_todo _ha
    try have h4 : (b.fetch .del).taken.todo < (b.fetch .del).todo := Side.taken_todo _hb
    omega

/-- `diff_namespace` over one tree of each database. -/
def diffNamespace (q : Qsort) (dba dbb : Tree ops) (resultdiff : Tuples) : Exec Tuples := do
  let (a, b, resultdiff) ← namespaceLoop q ⟨dba.nodes, false, ⟨[]⟩, []⟩ ⟨dbb.nodes, false, ⟨[]⟩, []⟩ resultdiff
  require (decide (a.diff = []))
  require (decide (b.diff = []))
  pure resultdiff

/-- `dns_db_diffx` without a journal file: first the names, then the NSEC3 tree. -/
def dbDiffx (q : Qsort) (dba dbb : Contents ops) : Exec Tuples := do
  let diff ← diffNamespace q dba.tree dbb.tree []
  diffNamespace q dba.nsec3 dbb.nsec3 diff

end Bind9.DbDiff
