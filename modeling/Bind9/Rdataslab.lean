import Mathlib.Data.List.Basic
import Mathlib.Tactic
import Bind9.Name

/-! # Rdata slabs

The two operations of `lib/dns/rdataslab.c` that change the content of an rdataset.  A slab is the
list of its rdata in DNSSEC order; `dns_rdataslab_fromrdataset` never makes an empty one.

`dns_rdata_compare` and `dns_rdatatype_issingleton` dispatch on the type through code that the build
generates; they are the parameter `RdataOps`. -/

namespace Bind9

/-- The bytes of one rdata, as the slab keeps them. -/
abbrev Rdata := Bytes

abbrev Slab := {l : List Rdata // l ≠ []}

/-- What the generated code says about the rdata of a type. -/
structure RdataOps where
  /-- `dns_rdata_compare`. -/
  compare : UInt16 → Rdata → Rdata → Ordering
  /-- `dns_rdatatype_issingleton`. -/
  issingleton : UInt16 → Bool

namespace Slab

variable (ops : RdataOps) (type : UInt16)

/-- `rdata_in_slab`: the search stops at the first greater rdata. -/
def rdataInSlab (rdata : Rdata) : List Rdata → Bool
  | [] => false
  | r :: rs =>
    match ops.compare type r rdata with
    | .eq => true
    | .gt => false
    | .lt => rdataInSlab rdata rs

/-- The rdata of the new slab that the old slab lacks. -/
def added (oslab nslab : Slab) : List Rdata := nslab.1.filter (fun r => !rdataInSlab ops type r oslab.1)

/-- The loop that writes the merged slab, in DNSSEC order. -/
def mergeLoop : List Rdata → List Rdata → List Rdata
  | os, [] => os
  | [], n :: ns => n :: ns
  | o :: os, n :: ns =>
    if ops.compare type o n = .lt then o :: mergeLoop os (n :: ns) else n :: mergeLoop (o :: os) ns
termination_by os ns => os.length + ns.length

theorem mergeLoop_ne_nil {os : List Rdata} (ns : List Rdata) (h : os ≠ []) : mergeLoop ops type os ns ≠ [] := by
  cases os with
  | nil => exact absurd rfl h
  | cons o os =>
    cases ns with
    | nil =>
      rw [mergeLoop]
      exact h
    | cons n ns =>
      rw [mergeLoop]
      split <;> exact List.cons_ne_nil _ _

/-- `dns_rdataslab_merge`; `mem` says whether the memory for the result is there.  The check for
`DNS_RDATASLAB_EXACT` compares the number of rdata with the sum it was made from. -/
def merge (mem : Bool) (oslab nslab : Slab) (exact force : Bool) : Except Result Slab :=
  let new := added ops type oslab nslab
  let tcount := oslab.1.length + new.length
  if exact ∧ tcount ≠ new.length + oslab.1.length then .error .notexact
  else if new = [] ∧ force = false then .error .unchanged
  else if 1 < tcount ∧ ops.issingleton type then .error .singleton
  else if 0xffff < tcount then .error .nospace
  else if mem = false then .error .nomemory
  else .ok ⟨mergeLoop ops type oslab.1 new, mergeLoop_ne_nil ops type new oslab.2⟩

/-- The rdata of `mslab` that are not in `sslab`. -/
def kept (mslab sslab : Slab) : List Rdata :=
  mslab.1.filter (fun r => !sslab.1.any (fun s => ops.compare type r s == .eq))

def subtract (mem : Bool) (mslab sslab : Slab) (exact : Bool) : Except Result Slab :=
  let rest := kept ops type mslab sslab
  let rcount := mslab.1.length - rest.length
  if exact ∧ rcount ≠ sslab.1.length then .error .notexact
  else if hr : rest = [] then .error .nxrrset
  else if rcount = 0 then .error .unchanged
  else if mem = false then .error .nomemory
  else .ok ⟨rest, hr⟩

end Slab

end Bind9
