import Bind9.NameOrder
import Bind9.Rdataslab

/-! # Diffs

The tuples of `lib/dns/diff.c`, `dns_diff_sort`, and the order of the records in a journal
(`ixfr_order` in `lib/dns/journal.c`).

`qsort` is the C library's: `Qsort` is any function that does what it promises, and the order of
elements that compare equal is left open. -/

namespace Bind9.Diff

/-- `dns_diffop_t`, without `DNS_DIFFOP_EXISTS`, which no tuple of a journal has. -/
inductive DiffOp where
  | add
  | del
  | addresign
  | delresign
deriving DecidableEq, Repr

structure DiffTuple where
  op : DiffOp
  name : Name
  ttl : ℕ
  rdclass : UInt16
  type : UInt16
  rdata : Rdata
deriving DecidableEq

abbrev Tuples := List DiffTuple

def nsec3 : UInt16 := 50

/-- `dns_rdata_covers`: the rdata of a signature starts with the type. -/
def typeCovered (r : Rdata) : UInt16 := UInt16.ofNat ((r.getD 0 0).toNat * 256 + (r.getD 1 0).toNat)

/-- A resource record. -/
structure Rr where
  name : Name
  ttl : ℕ
  rdclass : UInt16
  type : UInt16
  rdata : Rdata
deriving DecidableEq

/-- The record of a tuple. -/
def rrOf (t : DiffTuple) : Rr := ⟨t.name, t.ttl, t.rdclass, t.type, t.rdata⟩

/-- The tuple with the operation `op` for a record. -/
def Rr.tuple (op : DiffOp) (r : Rr) : DiffTuple := ⟨op, r.name, r.ttl, r.rdclass, r.type, r.rdata⟩

/-- The same owner, class, type and rdata, up to case. -/
def Rr.same (ops : RdataOps) (r s : Rr) : Bool :=
  r.name.equal s.name && r.rdclass == s.rdclass && r.type == s.type && ops.compare r.type r.rdata s.rdata == .eq

theorem Rr.same_iff {ops : RdataOps} {r s : Rr} : r.same ops s = true ↔
    r.name.lower = s.name.lower ∧ r.rdclass = s.rdclass ∧ r.type = s.type ∧ ops.compare r.type r.rdata s.rdata = .eq := by
  simp only [Rr.same, Bool.and_eq_true, beq_iff_eq, Name.equal_iff, and_assoc]

/-- The comparison of `dns_diff_appendminimal`; `dns_rdata_compare` looks at class and type too. -/
def sameTuple (ops : RdataOps) (ot t : DiffTuple) : Bool := (rrOf ot).same ops (rrOf t) && ot.ttl == t.ttl

/-- The loop of `dns_diff_appendminimal`: the first tuple with the owner, rdata and TTL of `t`, and the list without it. -/
def unlinkSame (ops : RdataOps) (t : DiffTuple) : Tuples → Option (DiffTuple × Tuples)
  | [] => none
  | ot :: rest => if sameTuple ops ot t then some (ot, rest) else (unlinkSame ops t rest).map (fun found => (found.1, ot :: found.2))

/-- `dns_diff_appendminimal`: the diff, and whether the `UNEXPECTED_ERROR` is reported. -/
def appendminimal (ops : RdataOps) (diff : Tuples) (t : DiffTuple) : Tuples × Bool :=
  match unlinkSame ops t diff with
  | none => (diff ++ [t], false)
  | some (ot, rest) => if t.op = ot.op then (rest ++ [t], true) else (rest, false)

/-- The tuple that is found is the same as `t`; without one, no tuple is. -/
theorem unlinkSame_spec {ops : RdataOps} (t : DiffTuple) : ∀ diff : Tuples,
    (unlinkSame ops t diff = none ∧ ∀ u ∈ diff, sameTuple ops u t = false) ∨
      ∃ ot rest, unlinkSame ops t diff = some (ot, rest) ∧ sameTuple ops ot t = true ∧ diff.Perm (ot :: rest)
  | [] => .inl ⟨rfl, by simp⟩
  | u :: diff => by
    unfold unlinkSame
    cases hu : sameTuple ops u t with
    | true => exact .inr ⟨u, diff, rfl, hu, .refl _⟩
    | false =>
      obtain ⟨hnone, hno⟩ | ⟨ot, rest, hsome, hot, hp⟩ := unlinkSame_spec t diff
      · exact .inl ⟨by rw [hnone]; rfl, by simpa [hu] using hno⟩
      · exact .inr ⟨ot, u :: rest, by rw [hsome]; rfl, hot, (hp.cons u).trans (.swap _ _ _)⟩

/-- `qsort` with a comparison function that returns the sign. -/
structure Qsort where
  sort : {α : Type} → (α → α → Ordering) → List α → List α
  perm : ∀ {α : Type} (cmp : α → α → Ordering) (l : List α), (sort cmp l).Perm l
  sorted : ∀ {α : Type} (cmp : α → α → Ordering) [Std.TransCmp cmp] (l : List α),
    (sort cmp l).Pairwise (fun a b => (cmp a b).isLE = true)

def Qsort.mergeSort : Qsort where
  sort cmp l := l.mergeSort (fun a b => (cmp a b).isLE)
  perm cmp l := List.mergeSort_perm l _
  sorted cmp _ l := by
    refine List.pairwise_mergeSort (fun a b c => Std.TransCmp.isLE_trans) (fun a b => ?_) l
    have h : cmp a b = (cmp b a).swap := Std.OrientedCmp.eq_swap
    rw [h]
    cases cmp b a with
    | lt | eq | gt => rfl

/-- Another one, which the kernel can run. -/
def Qsort.insertionSort : Qsort where
  sort cmp l := l.insertionSort (fun a b => (cmp a b).isLE = true)
  perm cmp l := List.perm_insertionSort _ l
  sorted cmp _ l := by
    have htotal : Std.Total (fun a b => (cmp a b).isLE = true) := by
      refine ⟨fun a b => ?_⟩
      rw [show cmp a b = (cmp b a).swap from Std.OrientedCmp.eq_swap]
      cases cmp b a <;> simp
    have htrans : IsTrans _ (fun a b => (cmp a b).isLE = true) := ⟨fun a b c => Std.TransCmp.isLE_trans⟩
    exact List.pairwise_insertionSort _ l

def soa : UInt16 := 6

/-- `aop` and `bop` of `ixfr_order`: deletions come first. -/
def DiffOp.aop : DiffOp → ℕ
  | del | delresign => 1
  | add | addresign => 0

def ixfrOrder (a b : DiffTuple) : Ordering :=
  (compare b.op.aop a.op.aop).then ((compare (b.type == soa).toNat (a.type == soa).toNat).then (compare a.type b.type))

/-- A comparison by a number, the greater one first. -/
theorem transCmp_descending {α : Type} (f : α → ℕ) : Std.TransCmp (fun a b => compare (f b) (f a)) :=
  inferInstanceAs (Std.TransCmp (fun a b => compareOn f b a))

instance ixfrOrder_trans : Std.TransCmp ixfrOrder :=
  have _ := transCmp_descending (fun t : DiffTuple => t.op.aop)
  have _ := transCmp_descending (fun t : DiffTuple => (t.type == soa).toNat)
  inferInstanceAs (Std.TransCmp (compareLex (fun a b : DiffTuple => compare b.op.aop a.op.aop)
    (compareLex (fun a b => compare (b.type == soa).toNat (a.type == soa).toNat) (compareOn (fun t => t.type)))))

end Bind9.Diff
