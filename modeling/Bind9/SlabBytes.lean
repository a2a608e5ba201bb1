import Bind9.Rdataslab
import Bind9.Region
import Bind9.Diff

/-! # The bytes of rdata slabs

`lib/dns/rdataslab.c` on the memory of the slabs, in both layouts: `fixed` is `DNS_RDATASET_FIXED`.  A slab is the list of its
bytes, a pointer into it an offset; reading or writing outside is `Stop.overrun`.  `unsigned int` has 32 bits.  Running out of
memory is left out. -/

namespace Bind9.RawSlab

def rrsig : UInt16 := 46

def OFFLINE : UInt8 := 1

/-- The layout that the code is compiled for, and the type of the rdata. -/
structure Layout where
  ops : RdataOps
  fixed : Bool
  type : UInt16

/-- A `dns_rdata_t` outside a slab. -/
structure Item where
  data : Bytes
  offline : Bool
deriving DecidableEq, Repr

/-- A `dns_rdata_t` whose data is in a slab. -/
structure SlabRdata where
  base : ℕ
  length : ℕ
  offline : Bool
deriving DecidableEq, Repr

/-- What `isc_mem_get` hands out. -/
structure Heap where
  get : ℕ → Bytes
  length_get : ∀ n, (get n).length = n

def peek16 (slab : Bytes) (p : ℕ) : Exec ℕ := do
  let hi ← byteAt slab p
  let lo ← byteAt slab (p + 1)
  pure (hi.toNat * 256 + lo.toNat)

/-- Bytes stored at `p`. -/
def poke (mem : Bytes) (p : ℕ) (bs : Bytes) : Exec Bytes :=
  if p + bs.length ≤ mem.length then .ok (mem.take p ++ bs ++ mem.drop (p + bs.length)) else .error .overrun

/-- `offsettable[i] = v`. -/
def setAt (table : List ℕ) (i v : ℕ) : Exec (List ℕ) :=
  if i < table.length then .ok (table.set i v) else .error .overrun

/-- `length--` of an `unsigned int`. -/
def decrement (n : ℕ) : ℕ := (n + 0xffffffff) % 2 ^ 32

section Functions

variable (l : Layout)

/-- The bytes in front of the data of a record, without the meta data. -/
def headerSize : ℕ := if l.fixed then 4 else 2

def metaSize : ℕ := if l.type = rrsig then 1 else 0

/-- The offset table of `count` records. -/
def tableSize (count : ℕ) : ℕ := if l.fixed then 4 * count else 0

variable (slab : Bytes)

def dataOf (r : SlabRdata) : Exec Bytes := bytesAt (slab.drop r.base) r.length

def fillinOffsets (offsetbase : ℕ) : List ℕ → ℕ → Bytes → Exec Bytes
  | [], _, mem => .ok mem
  | offset :: table, j, mem =>
    if offset = 0 then fillinOffsets offsetbase table j mem
    else do
      let mem ← poke mem (offsetbase + j * 4 + 2) (uint32Bytes offset)
      let mem ← poke mem (offsetbase + offset + 2) (uint16Bytes j)
      fillinOffsets offsetbase table (j + 1) mem

/-- Where a slab is written. -/
structure Writer where
  mem : Bytes
  cur : ℕ
  offsettable : List ℕ

/-- The offset of a record is noted, in the fixed layout. -/
def noteOffset (table : List ℕ) (index offset : ℕ) : Exec (List ℕ) :=
  if l.fixed then setAt table index offset else .ok table

/-- `fillin_offsets` at the end, in the fixed layout. -/
def fillIn (offsetbase : ℕ) (w : Writer) : Exec Bytes :=
  if l.fixed then fillinOffsets offsetbase w.offsettable 0 w.mem else .ok w.mem

/-! ### `dns_rdataslab_fromrdataset` -/

/-- `struct xrdata`; `removed` is `rdata.data == &removed`. -/
structure Xrdata where
  rdata : Item
  order : ℕ
  removed : Bool
deriving DecidableEq, Repr

def compareRdata (x y : Xrdata) : Ordering := l.ops.compare l.type x.rdata.data y.rdata.data

/-- The loop that removes duplicates; the last of them stays, with the least order. -/
def removeDuplicates (x : Xrdata) : List Xrdata → List Xrdata
  | [] => [x]
  | y :: ys =>
    if compareRdata l x y = .eq then { x with removed := true } :: removeDuplicates { y with order := min x.order y.order } ys
    else x :: removeDuplicates y ys

/-- The storage for a record, with its place in the offset table. -/
def storage (length : ℕ) : ℕ := (if l.fixed then 8 else 2) + length + metaSize l

/-- The meta data is or-ed into what the memory holds. -/
def storeMeta (mem : Bytes) (cur : ℕ) (offline : Bool) : Exec Bytes :=
  if l.type = rrsig then do
    let old ← byteAt mem cur
    poke mem cur [old ||| (if offline then OFFLINE else 0)]
  else .ok mem

/-- The loop that copies the data into the slab. -/
def storeRdata (offsetbase : ℕ) (w : Writer) (x : Xrdata) : Exec Writer :=
  if x.removed then pure w
  else do
    let offsettable ← noteOffset l w.offsettable x.order (w.cur - offsetbase)
    let length := x.rdata.data.length + metaSize l
    require (decide (length ≤ 0xffff))
    let mem ← poke w.mem w.cur (uint16Bytes length)
    -- two more bytes are filled in later
    let cur := w.cur + headerSize l
    let mem ← storeMeta l mem cur x.rdata.offline
    let mem ← poke mem (cur + metaSize l) x.rdata.data
    pure ⟨mem, cur + metaSize l + x.rdata.data.length, offsettable⟩

/-- The array `x` after `qsort` and the loop that removes duplicates. -/
def sorted (q : Diff.Qsort) (rdataset : List Item) : List Xrdata :=
  match q.sort (compareRdata l) (rdataset.zipIdx.map (fun (rdata, i) => ⟨rdata, i, false⟩)) with
  | [] => []
  | x :: xs => removeDuplicates l x xs

/-- `dns_rdataslab_fromrdataset`: the slab, and where the last byte was written. -/
def fromrdataset (q : Diff.Qsort) (heap : Heap) (reservelen : ℕ) (rdataset : List Item) : Exec (Bytes × ℕ) := do
  let nalloc := rdataset.length
  if nalloc = 0 ∧ l.type ≠ 0 then stop .failure
  else if 0xffff < nalloc then stop .nospace
  else
    let x := sorted l q rdataset
    let nitems := (x.filter (fun x => !x.removed)).length
    let buflen := (reservelen + 2 + ((x.filter (fun x => !x.removed)).map (fun x => storage l x.rdata.data.length)).sum) % 2 ^ 32
    if 1 < nitems ∧ l.ops.issingleton l.type then stop .singleton
    else
      let mem ← poke (heap.get buflen) reservelen (uint16Bytes nitems)
      let w ← x.foldlM (storeRdata l reservelen) ⟨mem, reservelen + 2 + tableSize l nitems, List.replicate nalloc 0⟩
      let mem ← fillIn l reservelen w
      pure (mem, w.cur)

/-! ### The rdataset of a slab -/

/-- `privateuint4` and `private5`. -/
structure Cursor where
  left : ℕ
  raw : ℕ
deriving DecidableEq, Repr

variable (reservelen : ℕ)

def first : Exec (Option Cursor) := do
  let count ← peek16 slab reservelen
  if count = 0 then pure none else pure (some ⟨count - 1, reservelen + 2 + tableSize l count⟩)

def next (c : Cursor) : Exec (Option Cursor) :=
  if c.left = 0 then pure none
  else do
    let length ← peek16 slab c.raw
    pure (some ⟨c.left - 1, c.raw + length + headerSize l⟩)

def current (c : Cursor) : Exec SlabRdata := do
  let length ← peek16 slab c.raw
  let raw := c.raw + headerSize l
  if l.type = rrsig then do
    let m ← byteAt slab raw
    pure ⟨raw + 1, decrement length, m &&& OFFLINE != 0⟩
  else pure ⟨raw, length, false⟩

/-- The records from a cursor on; there are no more than `left` after it. -/
def walk (slab : Bytes) : ℕ → Cursor → Exec (List Cursor)
  | 0, _ => pure []
  | n + 1, c => do
    match ← next l slab c with
    | none => pure [c]
    | some c' =>
      let cs ← walk slab n c'
      pure (c :: cs)

def cursors : Exec (List Cursor) := do
  match ← first l slab reservelen with
  | none => pure []
  | some c => walk l slab (c.left + 1) c

def sizeLoop (slab : Bytes) : ℕ → ℕ → Exec ℕ
  | 0, cur => pure cur
  | count + 1, cur => do
    let length ← peek16 slab cur
    sizeLoop slab count (cur + length + headerSize l)

def size : Exec ℕ := do
  let count ← peek16 slab reservelen
  let cur ← sizeLoop l slab count (reservelen + 2 + tableSize l count)
  pure (cur % 2 ^ 32)

/-! ### Reading the records for a merge or a subtraction -/

/-- `rdata_from_slab`: the rdata and where the next one begins.  The meta data is looked for right behind the length. -/
def rdataFromSlab (cur : ℕ) : Exec (SlabRdata × ℕ) := do
  let length ← peek16 slab cur
  let (offline, length, cur) ←
    if l.type = rrsig then do
      let m ← byteAt slab (cur + 2)
      pure (m &&& OFFLINE != 0, decrement length, cur + 3)
    else pure (false, length, cur + 2)
  let cur := if l.fixed then cur + 2 else cur
  pure (⟨cur, length, offline⟩, cur + length)

def inSlabLoop (slab rdata : Bytes) : ℕ → ℕ → Exec Bool
  | 0, _ => pure false
  | count + 1, cur => do
    let (r, cur) ← rdataFromSlab l slab cur
    let data ← dataOf slab r
    match l.ops.compare l.type data rdata with
    | .eq => pure true
    | .gt => pure false
    | .lt => inSlabLoop slab rdata count cur

def rdataInSlab (rdata : Bytes) : Exec Bool := do
  let count ← peek16 slab reservelen
  inSlabLoop l slab rdata count (reservelen + 2 + tableSize l count)

/-! ### `dns_rdataslab_merge` -/

def olengthLoop (slab : Bytes) : ℕ → ℕ → Exec ℕ
  | 0, _ => pure 0
  | count + 1, cur => do
    let length ← peek16 slab cur
    let rest ← olengthLoop slab count (cur + length + headerSize l)
    pure ((if l.fixed then length + 8 else length + 2) + rest)

/-- The length and the number of the rdata of the new slab that are not in the old slab. -/
def newLoop (oslab nslab : Bytes) (reservelen : ℕ) : ℕ → ℕ → Exec (ℕ × ℕ)
  | 0, _ => pure (0, 0)
  | count + 1, cur => do
    let (r, cur) ← rdataFromSlab l nslab cur
    let data ← dataOf nslab r
    let old ← rdataInSlab l oslab reservelen data
    let (length, nncount) ← newLoop oslab nslab reservelen count cur
    if old then pure (length, nncount) else pure (storage l r.length + length, nncount + 1)

/-- The order of the record at `cur`, which is below `count`. -/
def orderAt (cur count : ℕ) : Exec ℕ :=
  if l.fixed then do
    let order ← peek16 slab (cur + 2)
    require (decide (order < count))
    pure order
  else pure 0

/-- The loop that looks for the next rdata of the new slab; the slab ends it at the latest. -/
def nextNew (oslab nslab : Bytes) (reservelen oncount : ℕ) : ℕ → ℕ → Exec (ℕ × SlabRdata × ℕ)
  | 0, _ => .error .overrun
  | n + 1, cur => do
    let norder ← orderAt l nslab cur oncount
    let (r, cur) ← rdataFromSlab l nslab cur
    let data ← dataOf nslab r
    if ← rdataInSlab l oslab reservelen data then nextNew oslab nslab reservelen oncount n cur
    else pure (norder, r, cur)

/-- The first rdata of the new slab to add, if there is one. -/
def firstNew (oslab nslab : Bytes) (reservelen oncount ncount nstart : ℕ) : Exec (ℕ × SlabRdata × ℕ) :=
  if 0 < ncount then nextNew l oslab nslab reservelen oncount nslab.length nstart
  else .ok (0, ⟨0, 0, false⟩, nstart)

/-- The variables of the loop that merges. -/
structure Merge where
  w : Writer
  oadded : ℕ
  ocurrent : ℕ
  ordata : SlabRdata
  oorder : ℕ
  nadded : ℕ
  ncurrent : ℕ
  nrdata : SlabRdata
  norder : ℕ

/-- A record is copied with its meta data, which stands in front of the data. -/
def copyRdata (offsetbase : ℕ) (slab : Bytes) (r : SlabRdata) (index : ℕ) (w : Writer) : Exec Writer := do
  let offsettable ← noteOffset l w.offsettable index (w.cur - offsetbase)
  let length := r.length + metaSize l
  let mem ← poke w.mem w.cur (uint16Bytes length)
  let data ← bytesAt (slab.drop (r.base - metaSize l)) length
  let mem ← poke mem (w.cur + headerSize l) data
  pure ⟨mem, w.cur + headerSize l + length, offsettable⟩

/-- `fromold`: whether the next record is one of the old slab. -/
def fromold (oslab nslab : Bytes) (ocount ncount : ℕ) (v : Merge) : Exec Bool :=
  if v.oadded = ocount then .ok false
  else if v.nadded = ncount then .ok true
  else do
    let odata ← dataOf oslab v.ordata
    let ndata ← dataOf nslab v.nrdata
    pure (l.ops.compare l.type odata ndata == .lt)

/-- A turn of the loop that merges; each adds one record. -/
def mergeTurn (oslab nslab : Bytes) (reservelen ocount oncount ncount : ℕ) (v : Merge) : Exec Merge := do
  if ← fromold l oslab nslab ocount ncount v then
    let w ← copyRdata l reservelen oslab v.ordata v.oorder v.w
    if v.oadded + 1 < ocount then
      let oorder ← orderAt l oslab v.ocurrent ocount
      let (ordata, ocurrent) ← rdataFromSlab l oslab v.ocurrent
      pure { v with w := w, oadded := v.oadded + 1, oorder := oorder, ordata := ordata, ocurrent := ocurrent }
    else pure { v with w := w, oadded := v.oadded + 1 }
  else
    let w ← copyRdata l reservelen nslab v.nrdata (ocount + v.norder) v.w
    if v.nadded + 1 < ncount then
      let (norder, nrdata, ncurrent) ← nextNew l oslab nslab reservelen oncount nslab.length v.ncurrent
      pure { v with w := w, nadded := v.nadded + 1, norder := norder, nrdata := nrdata, ncurrent := ncurrent }
    else pure { v with w := w, nadded := v.nadded + 1 }

/-- The loop that merges, which has one turn for each record. -/
def mergeLoop (oslab nslab : Bytes) (reservelen ocount oncount ncount : ℕ) : ℕ → Merge → Exec Merge
  | 0, v => pure v
  | n + 1, v => do
    let v ← mergeTurn l oslab nslab reservelen ocount oncount ncount v
    mergeLoop oslab nslab reservelen ocount oncount ncount n v

def writeMerged (heap : Heap) (oslab nslab : Bytes) (reservelen ocount oncount ncount tcount tlength : ℕ) :
    Exec Bytes := do
  let reserve ← bytesAt nslab reservelen
  let mem ← poke (heap.get (tlength % 2 ^ 32)) 0 reserve
  let mem ← poke mem reservelen (uint16Bytes tcount)
  let ostart := reservelen + 2 + tableSize l ocount
  require (decide (ocount ≠ 0))
  let oorder ← orderAt l oslab ostart ocount
  let (ordata, ocurrent) ← rdataFromSlab l oslab ostart
  let nstart := reservelen + 2 + tableSize l oncount
  let (norder, nrdata, ncurrent) ← firstNew l oslab nslab reservelen oncount ncount nstart
  let v ← mergeLoop l oslab nslab reservelen ocount oncount ncount (ocount + ncount)
    ⟨⟨mem, reservelen + 2 + tableSize l tcount, List.replicate (ocount + oncount) 0⟩, 0, ocurrent, ordata, oorder, 0, ncurrent,
      nrdata, norder⟩
  let mem ← fillIn l reservelen v.w
  require (decide (v.w.cur = tlength % 2 ^ 32))
  pure mem

/-- `dns_rdataslab_merge`.  When the flag EXACT is looked at, `ncount` is the number of the rdata that were counted for `tcount`. -/
def merge (heap : Heap) (oslab nslab : Bytes) (reservelen : ℕ) (exact force : Bool) : Exec Bytes := do
  let ocount ← peek16 oslab reservelen
  let oncount ← peek16 nslab reservelen
  require (decide (0 < ocount ∧ 0 < oncount))
  let olength ← olengthLoop l oslab ocount (reservelen + 2 + tableSize l ocount)
  let (nlength, nncount) ← newLoop l oslab nslab reservelen oncount (reservelen + 2 + tableSize l oncount)
  let tlength := reservelen + 2 + olength + nlength
  let tcount := ocount + nncount
  let ncount := nncount
  if exact ∧ tcount ≠ ncount + ocount then stop .notexact
  else if nncount = 0 ∧ force = false then stop .unchanged
  else if 1 < tcount ∧ l.ops.issingleton l.type then stop .singleton
  else if 0xffff < tcount then stop .nospace
  else writeMerged l heap oslab nslab reservelen ocount oncount ncount tcount tlength

/-! ### `dns_rdataslab_subtract` -/

/-- The loop that looks for an rdata among those to subtract. -/
def matchLoop (sslab rdata : Bytes) : ℕ → ℕ → Exec Bool
  | 0, _ => pure false
  | count + 1, cur => do
    let (r, cur) ← rdataFromSlab l sslab cur
    let data ← dataOf sslab r
    if l.ops.compare l.type rdata data = .eq then pure true else matchLoop sslab rdata count cur

/-- The length and the number of the rdata that stay, and the number of those that go. -/
def countLoop (mslab sslab : Bytes) (scount sstart : ℕ) : ℕ → ℕ → Exec (ℕ × ℕ × ℕ)
  | 0, _ => pure (0, 0, 0)
  | count + 1, cur => do
    let (r, cur') ← rdataFromSlab l mslab cur
    let data ← dataOf mslab r
    let found ← matchLoop l sslab data scount sstart
    let (tlength, tcount, rcount) ← countLoop mslab sslab scount sstart count cur'
    if found then pure (tlength, tcount, rcount + 1) else pure (cur' - cur + tlength, tcount + 1, rcount)

/-- The loop that copies the records that stay. -/
def subtractLoop (mslab sslab : Bytes) (reservelen mcount scount sstart : ℕ) : ℕ → ℕ → Writer → Exec Writer
  | 0, _, w => pure w
  | count + 1, cur, w => do
    let order ← orderAt l mslab cur mcount
    let (r, cur') ← rdataFromSlab l mslab cur
    let data ← dataOf mslab r
    if ← matchLoop l sslab data scount sstart then subtractLoop mslab sslab reservelen mcount scount sstart count cur' w
    else
      let offsettable ← noteOffset l w.offsettable order (w.cur - reservelen)
      let record ← bytesAt (mslab.drop cur) (cur' - cur)
      let mem ← poke w.mem w.cur record
      subtractLoop mslab sslab reservelen mcount scount sstart count cur' ⟨mem, w.cur + (cur' - cur), offsettable⟩

def subtract (heap : Heap) (mslab sslab : Bytes) (reservelen : ℕ) (exact : Bool) : Exec Bytes := do
  let mcount ← peek16 mslab reservelen
  let scount ← peek16 sslab reservelen
  require (decide (0 < mcount ∧ 0 < scount))
  let mstart := reservelen + 2 + tableSize l mcount
  let sstart := reservelen + 2 + tableSize l scount
  let (length, tcount, rcount) ← countLoop l mslab sslab scount sstart mcount mstart
  let tlength := reservelen + 2 + length + tableSize l tcount
  if exact ∧ rcount ≠ scount then stop .notexact
  else if tcount = 0 then stop .nxrrset
  else if rcount = 0 then stop .unchanged
  else
    let reserve ← bytesAt mslab reservelen
    let mem ← poke (heap.get (tlength % 2 ^ 32)) 0 reserve
    let mem ← poke mem reservelen (uint16Bytes tcount)
    let w ← subtractLoop l mslab sslab reservelen mcount scount sstart mcount mstart
      ⟨mem, reservelen + 2 + tableSize l tcount, List.replicate mcount 0⟩
    let mem ← fillIn l reservelen w
    require (decide (w.cur = tlength % 2 ^ 32))
    pure mem

/-! ### `dns_rdataslab_equal` -/

def equalLoop (slab1 slab2 : Bytes) : ℕ → ℕ → ℕ → Exec Bool
  | 0, _, _ => pure true
  | count + 1, cur1, cur2 => do
    let length1 ← peek16 slab1 cur1
    let length2 ← peek16 slab2 cur2
    let cur1 := cur1 + headerSize l
    let cur2 := cur2 + headerSize l
    if length1 ≠ length2 then pure false
    else
      let order ← memcmp (slab1.drop cur1) (slab2.drop cur2) length1
      if order ≠ .eq then pure false
      else equalLoop slab1 slab2 count (cur1 + length1) (cur2 + length1)

def equal (slab1 slab2 : Bytes) (reservelen : ℕ) : Exec Bool := do
  let count1 ← peek16 slab1 reservelen
  let count2 ← peek16 slab2 reservelen
  if count1 ≠ count2 then pure false
  else equalLoop l slab1 slab2 count1 (reservelen + 2 + tableSize l count1) (reservelen + 2 + tableSize l count2)

end Functions

end Bind9.RawSlab
