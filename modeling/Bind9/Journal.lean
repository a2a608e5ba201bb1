import Bind9.Diff
import Bind9.Region
import Bind9.Lib.FileImage
import Bind9.Lib.Serial

/-! # The journal

The journal files of `lib/dns/journal.c`: the header, the index, the transactions and the iterator over their records.
The file is the list of its bytes; seeking, writing and syncing succeed, and a read behind the end of the file returns
`ISC_R_NOMORE`.  An offset of type `isc_offset_t` is a number; in the file and where `journal_seek` takes it, it has 32
bits.

`dns_rdata_fromwire` dispatches on the type through generated code; it is the parameter `RdataCodec`. -/

namespace Bind9.Journal

open List

open Diff Serial

/-! ### The layout of the file -/

structure Pos where
  serial : UInt32
  offset : ℕ
deriving DecidableEq, Repr

def Pos.valid (p : Pos) : Bool := p.offset != 0

def Pos.invalid : Pos := ⟨0, 0⟩

/-- `journal_header_t`; the format is always that of a journal. -/
structure Header where
  begin_ : Pos
  end_ : Pos
  indexSize : ℕ
  sourceserial : UInt32
  serialset : Bool
deriving DecidableEq, Repr

def Header.empty (h : Header) : Bool := h.begin_.offset == h.end_.offset

/-- `sizeof(journal_rawheader_t)`, which is `JOURNAL_HEADER_SIZE`. -/
def rawheaderSize : ℕ := 64

def rawposSize : ℕ := 8

def rawxhdrSize : ℕ := 12

def rawrrhdrSize : ℕ := 4

def decodeUint32 : Bytes → UInt32
  | b0 :: b1 :: b2 :: b3 :: _ => UInt32.ofNat (((b0.toNat * 256 + b1.toNat) * 256 + b2.toNat) * 256 + b3.toNat)
  | _ => 0

def Pos.encode (p : Pos) : Bytes := uint32Bytes p.serial.toNat ++ uint32Bytes p.offset

def Pos.decode (raw : Bytes) : Pos := ⟨decodeUint32 raw, (decodeUint32 (raw.drop 4)).toNat⟩

/-- `initial_journal_header.format`: the text `;BIND LOG V9` and a newline, filled with zeroes. -/
def format : Bytes := [59, 66, 73, 78, 68, 32, 76, 79, 71, 32, 86, 57, 10, 0, 0, 0]

def Header.encode (h : Header) : Bytes :=
  format ++ (h.begin_.encode ++ (h.end_.encode ++ (uint32Bytes h.indexSize ++ (uint32Bytes h.sourceserial.toNat ++
    ((if h.serialset then 1 else 0) :: replicate 23 0)))))

def Header.decode (raw : Bytes) : Header where
  begin_ := Pos.decode (raw.drop 16)
  end_ := Pos.decode (raw.drop 24)
  indexSize := (decodeUint32 (raw.drop 32)).toNat
  sourceserial := decodeUint32 (raw.drop 36)
  serialset := (raw.getD 40 0).toNat % 2 == 1

/-- The index in its on-disk format. -/
def encodeIndex (index : List Pos) : Bytes := index.flatMap Pos.encode

/-- The loop of `journal_open` that cooks the index. -/
def decodeIndex : ℕ → Bytes → List Pos
  | 0, _ => []
  | n + 1, raw => Pos.decode raw :: decodeIndex n (raw.drop rawposSize)

/-- `journal_file_create`: a header and an index of 56 entries. -/
def journalFileCreate : Bytes :=
  Header.encode ⟨⟨0, 0⟩, ⟨0, 0⟩, 56, 0, false⟩ ++ replicate (56 * rawposSize) 0

/-! ### The open journal -/

/-- `journal_state_t`; an open journal is never invalid. -/
inductive State where
  | read
  | write
  | transaction
  | inline
deriving DecidableEq, Repr

/-- The iteration state; `targetLength` is the room in the buffer that checked records are copied to. -/
structure Iter where
  bpos : Pos
  epos : Pos
  currentSerial : UInt32
  xsize : ℕ
  xpos : ℕ
  targetLength : ℕ

/-- `dns_journal_t`: the file with the current offset, the header and the index in core, the transaction state `x`
and the iteration state `it`. -/
structure DnsJournal where
  file : Bytes
  offset : ℕ
  header : Header
  index : List Pos
  state : State
  nSoa : ℕ
  pos₀ : Pos
  pos₁ : Pos
  it : Iter

variable (j : DnsJournal)

/-- The journal with the file at another offset. -/
def DnsJournal.moved (offset : ℕ) : DnsJournal := { j with offset := offset }

/-- `journal_seek`; the offset has the type `isc_uint32_t`. -/
def DnsJournal.seek (offset : ℕ) : DnsJournal := j.moved (offset % 2 ^ 32)

def DnsJournal.read (nbytes : ℕ) : Exec (Bytes × DnsJournal) :=
  match FileImage.readAt j.file j.offset nbytes with
  | some bytes => .ok (bytes, { j with offset := j.offset + nbytes })
  | none => stop .nomore

def DnsJournal.write (bytes : Bytes) : DnsJournal :=
  { j with file := FileImage.writeAt 0 j.file j.offset bytes, offset := j.offset + bytes.length }

structure Xhdr where
  size : ℕ
  serial0 : UInt32
  serial1 : UInt32

/-- The transaction header as `journal_write_xhdr` writes it. -/
def Xhdr.encode (x : Xhdr) : Bytes :=
  uint32Bytes x.size ++ (uint32Bytes x.serial0.toNat ++ uint32Bytes x.serial1.toNat)

def DnsJournal.readXhdr : Exec (Xhdr × DnsJournal) := do
  let (raw, j) ← j.read rawxhdrSize
  pure (⟨(decodeUint32 raw).toNat, decodeUint32 (raw.drop 4), decodeUint32 (raw.drop 8)⟩, j)

/-- `journal_open` on a file that exists.  The size of the raw index is an `unsigned int`; when it is too small for the
entries, the last assertion fails. -/
def journalOpen (file : Bytes) (write : Bool) : Exec DnsJournal := do
  let j : DnsJournal := ⟨file, 0, ⟨⟨0, 0⟩, ⟨0, 0⟩, 0, 0, false⟩, [], if write then .write else .read, 0, ⟨0, 0⟩, ⟨0, 0⟩,
    ⟨⟨0, 0⟩, ⟨0, 0⟩, 0, 0, 0, 0⟩⟩
  let (rawheader, j) ← j.read rawheaderSize
  if rawheader.take 16 ≠ format then stop .unexpected
  else
    let header := Header.decode rawheader
    let rawbytes := header.indexSize * rawposSize % 2 ^ 32
    let (rawindex, j) ← j.read rawbytes
    require (header.indexSize * rawposSize == rawbytes)
    pure { j with header := header, index := decodeIndex header.indexSize rawindex }

/-! ### Finding transactions -/

/-- `journal_next`; the offset that it checks for wraparound is a signed number of 64 bits. -/
def journalNext (pos : Pos) : Exec (DnsJournal × Pos) :=
  let j := j.seek pos.offset
  if pos.serial = j.header.end_.serial then stop .nomore
  else do
    let (xhdr, j) ← j.readXhdr
    if xhdr.serial0 ≠ pos.serial then stop .unexpected
    else if 2 ^ 63 ≤ pos.offset + (rawxhdrSize + xhdr.size) then stop .unexpected
    else pure (j, ⟨xhdr.serial1, pos.offset + (rawxhdrSize + xhdr.size)⟩)

theorem journalNext_ok {j j' : DnsJournal} {pos pos' : Pos} (h : journalNext j pos = .ok (j', pos')) :
    (∃ o, j' = j.moved o) ∧ pos.offset < pos'.offset ∧ pos'.offset < 2 ^ 63 := by
  simp only [journalNext] at h
  split at h
  · cases h
  obtain ⟨⟨xhdr, j1⟩, hx, h⟩ := bind_eq_ok h
  obtain ⟨⟨raw, j2⟩, hr, hx⟩ := bind_eq_ok hx
  split at h
  · cases h
  split at h
  · cases h
  next hlt =>
    cases h
    cases hx
    unfold DnsJournal.read at hr
    split at hr
    next =>
      cases hr
      refine ⟨⟨_, rfl⟩, ?_, not_le.1 hlt⟩
      simp only [rawxhdrSize]
      omega
    next => cases hr

theorem journalNext_advances {j j' : DnsJournal} {pos pos' : Pos} (h : journalNext j pos = .ok (j', pos')) :
    2 ^ 63 - pos'.offset < 2 ^ 63 - pos.offset := by
  obtain ⟨-, hlt, hmax⟩ := journalNext_ok h
  omega

def indexFind (index : List Pos) (serial : UInt32) (bestGuess : Pos) : Pos :=
  index.foldl (fun best p => if p.valid && ge serial p.serial && gt p.serial best.serial then p else best) bestGuess

/-- The entries with even numbers. -/
def evens : List Pos → List Pos
  | [] => []
  | [p] => [p]
  | p :: _ :: ps => p :: evens ps

/-- The index with room for one more entry: every second entry goes when there is none. -/
def makeRoom (index : List Pos) : List Pos :=
  if index.all Pos.valid then evens index ++ replicate (index.length - (evens index).length) .invalid else index

def indexAdd (index : List Pos) (pos : Pos) : Exec (List Pos) :=
  if index = [] then .ok []
  else do
    let index := makeRoom index
    let i := index.findIdx (fun p => !p.valid)
    require (decide (i < index.length))
    pure (index.set i pos)

def indexInvalidate (index : List Pos) (serial : UInt32) : List Pos :=
  index.map (fun p => if gt serial p.serial then p else .invalid)

def findLoop (j : DnsJournal) (serial : UInt32) (pos : Pos) : Exec (DnsJournal × Pos) :=
  if pos.serial = serial then .ok (j, pos)
  else if gt pos.serial serial then stop .notfound
  else
    match _h : journalNext j pos with
    | .error e => .error e
    | .ok (j', pos') => findLoop j' serial pos'
termination_by 2 ^ 63 - pos.offset
decreasing_by exact journalNext_advances _h

def journalFind (serial : UInt32) : Exec (DnsJournal × Pos) :=
  if gt j.header.begin_.serial serial then stop .range
  else if gt serial j.header.end_.serial then stop .range
  else if serial = j.header.end_.serial then .ok (j, j.header.end_)
  else findLoop j serial (indexFind j.index serial j.header.begin_)

/-! ### Writing transactions -/

/-- `dns_journal_begin_transaction`; its local variable `offset` has 32 bits. -/
def beginTransaction : Exec DnsJournal := do
  require (j.state == .write || j.state == .inline)
  let offset := (if j.header.empty then rawheaderSize + j.header.indexSize * rawposSize else j.header.end_.offset) % 2 ^ 32
  let j := (j.seek offset).write (replicate rawxhdrSize 0)
  pure { j with
    pos₀ := { j.pos₀ with offset := offset }
    pos₁ := { j.pos₁ with offset := j.offset }
    nSoa := 0
    state := .transaction }

def soaGetserial (rdata : Rdata) : Exec UInt32 := do
  require (decide (20 ≤ rdata.length))
  pure (decodeUint32 (rdata.drop (rdata.length - 20)))

/-- The first pass of `dns_journal_writediff`: the serials of the first two SOA records. -/
def countSoas (j : DnsJournal) : Tuples → Exec DnsJournal
  | [] => .ok j
  | t :: ts =>
    if t.type = soa then
      if j.nSoa < 2 then do
        let serial ← soaGetserial t.rdata
        countSoas (if j.nSoa = 0 then { j with pos₀ := { j.pos₀ with serial := serial }, nSoa := 1 }
          else { j with pos₁ := { j.pos₁ with serial := serial }, nSoa := j.nSoa + 1 }) ts
      else countSoas { j with nSoa := j.nSoa + 1 } ts
    else countSoas j ts

/-- The bytes of a record in the journal, without the length in front of it. -/
def rrData (t : DiffTuple) : Bytes :=
  t.name.ndata ++ (uint16Bytes t.type.toNat ++ (uint16Bytes t.rdclass.toNat ++ (uint32Bytes t.ttl ++
    (uint16Bytes t.rdata.length ++ t.rdata))))

/-- The bytes that the second pass of `dns_journal_writediff` writes for a tuple. -/
def rrBytes (t : DiffTuple) : Bytes := uint32Bytes (t.name.length + 10 + t.rdata.length) ++ rrData t

/-- `dns_journal_writediff`.  The size of the buffer is an `unsigned int`; when the records need more, a call that puts them into the
buffer fails its assertion. -/
def writediff (diff : Tuples) : Exec DnsJournal := do
  require (j.state == .transaction)
  let j ← countSoas j diff
  require (diff.all (fun t => decide (t.rdata.length < 65536)))
  let used := diff.flatMap rrBytes
  let size := used.length % 2 ^ 32
  require (used.length == size)
  pure ({ j with pos₁ := { j.pos₁ with offset := j.pos₁.offset + used.length } }.write used)

/-- The loop of `dns_journal_commit` that steps `header.begin` to the first addressable transaction. -/
def purgeLoop (j : DnsJournal) (serial : UInt32) : Exec DnsJournal :=
  if gt serial j.header.begin_.serial then .ok j
  else
    match _h : journalNext j j.header.begin_ with
    | .error e => .error e
    | .ok (j', pos) => purgeLoop { j' with header := { j'.header with begin_ := pos } } serial
termination_by 2 ^ 63 - j.header.begin_.offset
decreasing_by exact journalNext_advances _h

def indexToDisk : DnsJournal :=
  if j.header.indexSize = 0 then j else (j.seek rawheaderSize).write (encodeIndex j.index)

/-- The purge of `dns_journal_commit`: of the header and of the index. -/
def purge : Exec DnsJournal :=
  if j.header.empty then .ok j
  else do
    let j ← purgeLoop j j.pos₁.serial
    pure { j with index := indexInvalidate j.index j.pos₁.serial }

/-- The updates of `dns_journal_commit` once the transaction is accepted. -/
def commitFiles : Exec DnsJournal := do
  let j ← purge j
  let size := j.pos₁.offset - j.pos₀.offset - rawxhdrSize
  let j := (j.seek j.pos₀.offset).write (Xhdr.encode ⟨size, j.pos₀.serial, j.pos₁.serial⟩)
  let j := { j with header := { j.header with
    begin_ := if j.header.empty then j.pos₀ else j.header.begin_
    end_ := j.pos₁ } }
  let j := (j.seek 0).write j.header.encode
  let index ← indexAdd j.index j.pos₀
  pure { indexToDisk { j with index := index } with state := .write }

/-- `dns_journal_commit`; `bind8_compat` is true. -/
def commit : Exec DnsJournal :=
  match j.state with
  | .inline => .ok { (j.seek 0).write j.header.encode with state := .write }
  | .transaction =>
    if j.nSoa ≠ 2 then stop .unexpected
    else if ¬(gt j.pos₁.serial j.pos₀.serial || j.pos₁.serial == j.pos₀.serial) then stop .unexpected
    else if j.header.empty = false ∧ j.pos₀.serial ≠ j.header.end_.serial then stop .unexpected
    else commitFiles j
  | _ => .error .assertion

def writeTransaction (q : Qsort) (j : DnsJournal) (diff : Tuples) : Exec DnsJournal := do
  let j ← beginTransaction j
  let j ← writediff j (q.sort ixfrOrder diff)
  commit j

/-! ### Reading -/

/-- `dns_rdata_fromwire` of uncompressed rdata into a buffer with `room` bytes. -/
structure RdataCodec where
  fromwire : (rdclass type : UInt16) → (room : ℕ) → Bytes → Exec Rdata

def iterInit (beginSerial endSerial : UInt32) : Exec DnsJournal := do
  let (j, bpos) ← journalFind j beginSerial
  require (bpos.serial == beginSerial)
  let (j, epos) ← journalFind j endSerial
  require (epos.serial == endSerial)
  pure { j with it := { j.it with bpos := bpos, epos := epos } }

/-- The start of `read_one_rr`: at a transaction boundary, read the transaction header. -/
def readBoundary : Exec DnsJournal :=
  if j.it.xpos = j.it.xsize then do
    let (xhdr, j) ← j.readXhdr
    if xhdr.size = 0 then stop .unexpected
    else if xhdr.serial0 ≠ j.it.currentSerial then stop .unexpected
    else pure { j with it := { j.it with xsize := xhdr.size, xpos := 0 } }
  else .ok j

/-- The rest of `read_one_rr`, once the bytes `source` of a record are there and the target buffer has `room` bytes:
the record. -/
def parseRr (codec : RdataCodec) (room : ℕ) (source : Bytes) : Exec Rr :=
  match fromwire source 0 room false 0 with
  | .error r => stop r
  | .ok d =>
    let rest := source.drop d.cused
    if rest.length < 10 then stop .formerr
    else do
      let name ← nameFromregion d.ndata
      let rdtype ← uint16Fromregion rest
      let rdclass ← uint16Fromregion (rest.drop 2)
      let ttl ← uint32Fromregion (rest.drop 4)
      let rdlen ← uint16Fromregion (rest.drop 8)
      if (rest.drop 10).length ≠ rdlen then stop .formerr
      else
        let rdata ← codec.fromwire (UInt16.ofNat rdclass) (UInt16.ofNat rdtype) (room - d.ndata.length) (rest.drop 10)
        pure ⟨name, ttl, UInt16.ofNat rdclass, UInt16.ofNat rdtype, rdata⟩

def readOneRr (codec : RdataCodec) (j : DnsJournal) : Exec (Rr × DnsJournal) := do
  require (decide (j.offset ≤ j.it.epos.offset))
  if j.offset = j.it.epos.offset then stop .nomore
  else
    let j ← readBoundary j
    let (raw, j) ← j.read rawrrhdrSize
    let size := (decodeUint32 raw).toNat
    if size < 11 ∨ 70000 < size then stop .unexpected
    else
      let (source, j) ← j.read size
      let room := max j.it.targetLength size
      let rr ← parseRr codec room source
      let currentSerial ← if rr.type = soa then soaGetserial rr.rdata else pure j.it.currentSerial
      pure (rr, { j with it := { j.it with
        currentSerial := currentSerial, xpos := (j.it.xpos + (rawrrhdrSize + size)) % 2 ^ 32, targetLength := room } })

def nextRr (codec : RdataCodec) (j : DnsJournal) : Exec (Rr × DnsJournal) := readOneRr codec j

def firstRr (codec : RdataCodec) (j : DnsJournal) : Exec (Rr × DnsJournal) :=
  readOneRr codec { j.seek j.it.bpos.offset with
    it := { j.it with currentSerial := j.it.bpos.serial, xsize := 0, xpos := 0 } }

end Bind9.Journal
