import Bind9.JournalIndex

/-! # Journals with any bytes

Opening, reading and writing a journal whose file may hold any bytes behind the format.  The positions in the header, the
entries of the index and the sizes of transactions and records are whatever the file says; `Returns` says that a function
comes back with success or an error.  Where it does not, an assertion fails: in `journal_open` when the size of the raw index
does not fit in an `unsigned int`, in `read_one_rr` when the iterator is behind the end of the part that is read, in
`index_add` when the index has one entry, which is in use, and when the records of a transaction do not fit into a buffer whose
size is an `unsigned int`.

The conditions are on the file as it is laid out (`PlaceOf`, `recordAt`); the functions are shown to read it so. -/

namespace Bind9.Journal

open List

open Diff Serial

/-! ### Opening -/

variable {j j' : DnsJournal}

theorem read_eq {n : ℕ} (h : j.offset + n ≤ j.file.length) :
    j.read n = .ok ((j.file.drop j.offset).take n, j.moved (j.offset + n)) := by
  rw [DnsJournal.read, FileImage.readAt, if_pos h]
  rfl

theorem read_short {n : ℕ} (h : ¬j.offset + n ≤ j.file.length) : j.read n = stop .nomore := by
  rw [DnsJournal.read, FileImage.readAt, if_neg h]

/-- The number of index entries in the header of a file. -/
def indexSizeOf (file : Bytes) : ℕ := (Header.decode (file.take rawheaderSize)).indexSize

/-- The raw index is not cut off: its size in bytes fits in an `unsigned int`, unless the file ends in front of what
`journal_open` reads of it. -/
def IndexFits (file : Bytes) : Prop :=
  rawheaderSize + indexSizeOf file * rawposSize % 2 ^ 32 ≤ file.length → indexSizeOf file * rawposSize < 2 ^ 32

theorem journalOpen_returns_iff {file : Bytes} (hformat : file.take 16 = format) (write : Bool) :
    Returns (journalOpen file write) ↔ IndexFits file := by
  have hopen : journalOpen file write = (DnsJournal.read ⟨file, 0, ⟨⟨0, 0⟩, ⟨0, 0⟩, 0, 0, false⟩, [],
      if write then .write else .read, 0, ⟨0, 0⟩, ⟨0, 0⟩, ⟨⟨0, 0⟩, ⟨0, 0⟩, 0, 0, 0, 0⟩⟩ rawheaderSize >>= fun p =>
      if p.1.take 16 ≠ format then stop .unexpected
      else p.2.read ((Header.decode p.1).indexSize * rawposSize % 2 ^ 32) >>= fun q =>
        require ((Header.decode p.1).indexSize * rawposSize == (Header.decode p.1).indexSize * rawposSize % 2 ^ 32) >>=
          fun _ => pure { q.2 with header := Header.decode p.1, index := decodeIndex (Header.decode p.1).indexSize q.1 }) := rfl
  rw [hopen, IndexFits]
  by_cases hheader : rawheaderSize ≤ file.length
  · rw [read_eq (by rw [Nat.zero_add]; exact hheader)]
    simp only [ok_then, drop_zero, Nat.zero_add]
    have htake : (file.take rawheaderSize).take 16 = format := by
      rw [take_take, ← hformat]
      rfl
    rw [if_neg (not_not.2 htake), ← indexSizeOf]
    by_cases hraw : rawheaderSize + indexSizeOf file * rawposSize % 2 ^ 32 ≤ file.length
    · rw [read_eq hraw]
      simp only [ok_then]
      by_cases hfits : indexSizeOf file * rawposSize < 2 ^ 32
      · rw [Nat.mod_eq_of_lt hfits, require_true (beq_self_eq_true _)]
        exact ⟨fun _ _ => hfits, fun _ => returns_ok _⟩
      have hne : (indexSizeOf file * rawposSize == indexSizeOf file * rawposSize % 2 ^ 32) = false := by
        rw [beq_eq_false_iff_ne]
        have := Nat.mod_lt (indexSizeOf file * rawposSize) (Nat.two_pow_pos 32)
        omega
      rw [hne]
      refine ⟨fun hret => ?_, fun h => absurd (h hraw) hfits⟩
      obtain ⟨r, hr⟩ := hret .assertion rfl
      cases hr
    · rw [read_short hraw]
      exact ⟨fun _ h => absurd h hraw, fun _ => returns_stop _⟩
  · rw [read_short (by rw [Nat.zero_add]; exact hheader)]
    exact ⟨fun _ h => absurd h (by omega), fun _ => returns_stop _⟩

/-! ### The places in the file -/

/-- The transaction header at an offset of the file. -/
def xhdrAt (file : Bytes) (offset : ℕ) : Option Xhdr :=
  (FileImage.readAt file offset rawxhdrSize).map
    (fun raw => ⟨(decodeUint32 raw).toNat, decodeUint32 (raw.drop 4), decodeUint32 (raw.drop 8)⟩)

/-- Where the transaction at `p` leads to; the last one of the journal leads to nothing. -/
def follows (file : Bytes) (endSerial : UInt32) (p : Pos) : Option Pos :=
  if p.serial = endSerial then none
  else (xhdrAt file (p.offset % 2 ^ 32)).bind fun x =>
    if x.serial0 = p.serial ∧ p.offset + (rawxhdrSize + x.size) < 2 ^ 63 then some ⟨x.serial1, p.offset + (rawxhdrSize + x.size)⟩
    else none

/-- The transactions from `p` on lead to `r`, the first place with the serial, and pass no later serial. -/
inductive Finds (file : Bytes) (endSerial serial : UInt32) : Pos → Pos → Prop
  | here {p : Pos} : p.serial = serial → Finds file endSerial serial p p
  | next {p p' r : Pos} : p.serial ≠ serial → gt p.serial serial = false → follows file endSerial p = some p' →
      Finds file endSerial serial p' r → Finds file endSerial serial p r

/-- The place of a serial: the end, or where the transactions lead from the best entry of the index or the begin. -/
def PlaceOf (j : DnsJournal) (serial : UInt32) (p : Pos) : Prop :=
  gt j.header.begin_.serial serial = false ∧ gt serial j.header.end_.serial = false ∧
    if serial = j.header.end_.serial then p = j.header.end_
    else Finds j.file j.header.end_.serial serial (indexFind j.index serial j.header.begin_) p

/-- The transactions from `p` on lead to one that starts before the serial. -/
inductive Passes (file : Bytes) (endSerial serial : UInt32) : Pos → Prop
  | here {p : Pos} : gt serial p.serial = true → Passes file endSerial serial p
  | next {p p' : Pos} : gt serial p.serial = false → follows file endSerial p = some p' → Passes file endSerial serial p' →
      Passes file endSerial serial p

theorem readXhdr_cases (j : DnsJournal) : (∃ r, j.readXhdr = stop r ∧ xhdrAt j.file j.offset = none) ∨
    ∃ x, j.readXhdr = .ok (x, j.moved (j.offset + rawxhdrSize)) ∧ xhdrAt j.file j.offset = some x := by
  unfold DnsJournal.readXhdr DnsJournal.read xhdrAt
  cases FileImage.readAt j.file j.offset rawxhdrSize with
  | none => exact .inl ⟨.nomore, rfl, rfl⟩
  | some raw => exact .inr ⟨_, rfl, rfl⟩

theorem journalNext_cases (j : DnsJournal) (p : Pos) :
    (∃ r, journalNext j p = stop r ∧ follows j.file j.header.end_.serial p = none) ∨
    ∃ o p', journalNext j p = .ok (j.moved o, p') ∧ follows j.file j.header.end_.serial p = some p' := by
  unfold journalNext follows
  by_cases hend : p.serial = j.header.end_.serial
  · exact .inl ⟨.nomore, if_pos hend, if_pos hend⟩
  simp only
  rw [if_neg (show ¬p.serial = (j.seek p.offset).header.end_.serial from hend), if_neg hend]
  obtain ⟨r, hread, hnone⟩ | ⟨x, hread, hsome⟩ := readXhdr_cases (j.seek p.offset)
  · rw [hread, show xhdrAt j.file (p.offset % 2 ^ 32) = none from hnone]
    exact .inl ⟨r, rfl, rfl⟩
  rw [hread, show xhdrAt j.file (p.offset % 2 ^ 32) = some x from hsome, ok_then, Option.bind_some]
  simp only
  split
  next hserial => exact .inl ⟨.unexpected, rfl, if_neg (fun hand => hserial hand.1)⟩
  next hserial =>
    split
    next hle => exact .inl ⟨.unexpected, rfl, if_neg (fun hand => absurd hand.2 (not_lt.2 hle))⟩
    next hlt => exact .inr ⟨_, _, rfl, if_pos ⟨not_not.1 hserial, not_le.1 hlt⟩⟩

theorem findLoop_cases (serial : UInt32) (j : DnsJournal) (p : Pos) :
    (∃ r, findLoop j serial p = stop r ∧ ∀ p', ¬Finds j.file j.header.end_.serial serial p p') ∨
    ∃ o r, findLoop j serial p = .ok (j.moved o, r) ∧ r.serial = serial ∧
      ∀ p', Finds j.file j.header.end_.serial serial p p' ↔ p' = r := by
  induction j, p using findLoop.induct serial with
  | case1 j p h =>
    rw [findLoop_found h]
    refine .inr ⟨j.offset, p, rfl, h, fun p' => ⟨fun hp => ?_, ?_⟩⟩
    · cases hp with
      | here => rfl
      | next hne => exact absurd h hne
    · rintro rfl
      exact .here h
  | case2 j p h hgt =>
    rw [findLoop_passed h hgt]
    refine .inl ⟨.notfound, rfl, fun p' hp => ?_⟩
    cases hp with
    | here hp => exact h hp
    | next _ hle => exact absurd hgt (Bool.eq_false_iff.1 hle)
  | case3 j p h hgt e he =>
    obtain ⟨r, hnext, hnone⟩ | ⟨o, p', hnext, -⟩ := journalNext_cases j p
    · refine .inl ⟨r, ?_, fun p' hp => ?_⟩
      · rw [findLoop, if_neg h, if_neg hgt]
        split
        next e' he' =>
          rw [hnext] at he'
          exact congrArg Except.error (Except.error.inj he').symm
        next j' p' he' =>
          rw [he] at he'
          cases he'
      · cases hp with
        | here hp => exact h hp
        | next _ _ hsome => cases hnone.symm.trans hsome
    · cases he.symm.trans hnext
  | case4 j p h hgt j' p' he ih =>
    rw [findLoop_next h (Bool.eq_false_iff.2 hgt) he]
    obtain ⟨r, hnext, -⟩ | ⟨o, p1, hnext, hsome⟩ := journalNext_cases j p
    · cases he.symm.trans hnext
    cases he.symm.trans hnext
    have hfinds : ∀ r, Finds j.file j.header.end_.serial serial p r ↔ Finds j.file j.header.end_.serial serial p' r := by
      refine fun r => ⟨fun hp => ?_, fun hp => .next h (Bool.eq_false_iff.2 hgt) hsome hp⟩
      cases hp with
      | here hp => exact absurd hp h
      | next _ _ hsome' hrest =>
        cases hsome.symm.trans hsome'
        exact hrest
    simp only [hfinds]
    obtain ⟨r, hr, hnone⟩ | ⟨o', r, hr, hserial, huniq⟩ := ih
    · exact .inl ⟨r, hr, hnone⟩
    · exact .inr ⟨o', r, hr, hserial, huniq⟩

theorem journalFind_cases (j : DnsJournal) (serial : UInt32) :
    (∃ r, Journal.journalFind j serial = stop r ∧ ∀ p, ¬PlaceOf j serial p) ∨
    ∃ o p, Journal.journalFind j serial = .ok (j.moved o, p) ∧ p.serial = serial ∧ ∀ p', PlaceOf j serial p' ↔ p' = p := by
  unfold Journal.journalFind PlaceOf
  split
  next hbegin => exact .inl ⟨.range, rfl, fun p hp => absurd hbegin (Bool.eq_false_iff.1 hp.1)⟩
  next hbegin =>
    split
    next hend => exact .inl ⟨.range, rfl, fun p hp => absurd hend (Bool.eq_false_iff.1 hp.2.1)⟩
    next hend =>
      simp only [Bool.eq_false_iff.2 hbegin, Bool.eq_false_iff.2 hend, true_and]
      split
      next h => exact .inr ⟨j.offset, j.header.end_, rfl, h.symm, fun p' => Iff.rfl⟩
      next => exact findLoop_cases serial j _

theorem iterInit_cases (j : DnsJournal) (beginSerial endSerial : UInt32) :
    (∃ r, iterInit j beginSerial endSerial = stop r ∧ ∀ p p', PlaceOf j beginSerial p → ¬PlaceOf j endSerial p') ∨
    ∃ o p p', iterInit j beginSerial endSerial = .ok { j.moved o with it := { j.it with bpos := p, epos := p' } } ∧
      (∀ r, PlaceOf j beginSerial r ↔ r = p) ∧ ∀ r, PlaceOf j endSerial r ↔ r = p' := by
  unfold iterInit
  obtain ⟨r, hb, hnone⟩ | ⟨o, p, hb, hserial, hp⟩ := journalFind_cases j beginSerial
  · rw [hb]
    exact .inl ⟨r, rfl, fun p _ hp => absurd hp (hnone p)⟩
  rw [hb, ok_then]
  simp only [require_true (beq_iff_eq.2 hserial), ok_then]
  obtain ⟨r, he, hnone⟩ | ⟨o', p', he, hserial', hp'⟩ := journalFind_cases (j.moved o) endSerial
  · rw [he]
    exact .inl ⟨r, rfl, fun _ p' _ => hnone p'⟩
  rw [he, ok_then]
  simp only [require_true (beq_iff_eq.2 hserial'), ok_then]
  exact .inr ⟨o', p, p', rfl, hp, hp'⟩

theorem purgeLoop_iff (serial : UInt32) (j : DnsJournal) :
    (∃ j', purgeLoop j serial = .ok j') ↔ Passes j.file j.header.end_.serial serial j.header.begin_ := by
  induction j using purgeLoop.induct serial with
  | case1 j hgt =>
    rw [purgeLoop_done hgt]
    exact iff_of_true ⟨j, rfl⟩ (.here hgt)
  | case2 j hgt e he =>
    obtain ⟨r, -, hnone⟩ | ⟨o, p', hnext, -⟩ := journalNext_cases j j.header.begin_
    · refine iff_of_false ?_ (fun hp => ?_)
      · rintro ⟨j', hj'⟩
        rw [purgeLoop, if_neg hgt] at hj'
        split at hj'
        next => cases hj'
        next j1 p he' =>
          rw [he] at he'
          cases he'
      · cases hp with
        | here hp => exact hgt hp
        | next _ hsome => cases hnone.symm.trans hsome
    · cases he.symm.trans hnext
  | case3 j hgt j1 p he ih =>
    rw [purgeLoop_next (Bool.eq_false_iff.2 hgt) he]
    refine Iff.trans ih ?_
    obtain ⟨r, hnext, -⟩ | ⟨o, p', hnext, hsome⟩ := journalNext_cases j j.header.begin_
    · cases he.symm.trans hnext
    cases he.symm.trans hnext
    refine ⟨fun hp => .next (Bool.eq_false_iff.2 hgt) hsome hp, fun hp => ?_⟩
    cases hp with
    | here hp => exact absurd hp hgt
    | next _ hsome' hrest =>
      cases hsome.symm.trans hsome'
      exact hrest

/-! ### Reading a record -/

/-- What the journal uses of `dns_rdata_fromwire`: it comes back, and a SOA record that it accepts has its five numbers. -/
structure RdataCodec.Lawful (codec : RdataCodec) : Prop where
  returns : ∀ rdclass type room r, Returns (codec.fromwire rdclass type room r)
  soa_le : ∀ rdclass room r rdata, codec.fromwire rdclass soa room r = .ok rdata → 20 ≤ rdata.length

theorem uint16Fromregion_returns {r : Bytes} (h : 2 ≤ r.length) : Returns (uint16Fromregion r) := by
  obtain ⟨n, -, hread⟩ := uint16Fromregion_of_length h
  have hnil := hread []
  rw [append_nil] at hnil
  rw [hnil]
  exact returns_ok n

theorem uint32Fromregion_returns {r : Bytes} (h : 4 ≤ r.length) : Returns (uint32Fromregion r) := by
  obtain ⟨n, -, hread⟩ := uint32Fromregion_of_length h
  rw [hread]
  exact returns_ok n

variable {codec : RdataCodec}

theorem parseRr_returns (hcodec : codec.Lawful) (room : ℕ) (source : Bytes) : Returns (parseRr codec room source) ∧
      ∀ rr, parseRr codec room source = .ok rr → rr.type = soa → 20 ≤ rr.rdata.length := by
  unfold parseRr
  cases hname : fromwire source 0 room false 0 with
  | error r => exact ⟨returns_stop _, fun rr hr => (by cases hr)⟩
  | ok d =>
    obtain ⟨n, hn, -⟩ := fromwire_ok hname
    simp only
    generalize source.drop d.cused = rest
    split
    next => exact ⟨returns_stop _, fun rr hr => (by cases hr)⟩
    next hlen =>
      have hregion : nameFromregion d.ndata = .ok n.name := by
        have hr := nameFromregion_append n []
        rwa [append_nil, ← hn] at hr
      rw [hregion]
      refine ⟨?_, fun rr hr => ?_⟩
      · refine (returns_ok _).bind (fun name _ => ?_)
        refine (uint16Fromregion_returns (by omega)).bind (fun rdtype _ => ?_)
        refine (uint16Fromregion_returns (by rw [length_drop]; omega)).bind (fun rdclass _ => ?_)
        refine (uint32Fromregion_returns (by rw [length_drop]; omega)).bind (fun ttl _ => ?_)
        refine (uint16Fromregion_returns (by rw [length_drop]; omega)).bind (fun rdlen _ => ?_)
        split
        · exact returns_stop _
        · exact (hcodec.returns _ _ _ _).bind (fun _ _ => returns_ok _)
      · obtain ⟨name, -, hr⟩ := bind_eq_ok hr
        obtain ⟨rdtype, -, hr⟩ := bind_eq_ok hr
        obtain ⟨rdclass, -, hr⟩ := bind_eq_ok hr
        obtain ⟨ttl, -, hr⟩ := bind_eq_ok hr
        obtain ⟨rdlen, -, hr⟩ := bind_eq_ok hr
        split at hr
        next => cases hr
        next =>
          obtain ⟨rdata, hrdata, hr⟩ := bind_eq_ok hr
          cases hr
          intro hsoa
          rw [show UInt16.ofNat rdtype = soa from hsoa] at hrdata
          exact hcodec.soa_le _ _ _ _ hrdata

/-- What the iterator has behind a record: the serial, the transaction that it is in, and the room in its buffer. -/
structure Mark where
  serial : UInt32
  xsize : ℕ
  xpos : ℕ
  room : ℕ
  offset : ℕ

def DnsJournal.mark (j : DnsJournal) : Mark := ⟨j.it.currentSerial, j.it.xsize, j.it.xpos, j.it.targetLength, j.offset⟩

/-- Behind the header of a transaction, where the next thing in the file is one. -/
def boundaryAt (file : Bytes) (m : Mark) : Option Mark :=
  if m.xpos = m.xsize then
    (xhdrAt file m.offset).bind fun x =>
      if x.size ≠ 0 ∧ x.serial0 = m.serial then some { m with xsize := x.size, xpos := 0, offset := m.offset + rawxhdrSize } else none
  else some m

/-- The record of the file at the mark leads to the mark behind it. -/
def recordAt (codec : RdataCodec) (file : Bytes) (m : Mark) : Option Mark :=
  (boundaryAt file m).bind fun m => (FileImage.readAt file m.offset rawrrhdrSize).bind fun raw =>
    if (decodeUint32 raw).toNat < 11 ∨ 70000 < (decodeUint32 raw).toNat then none
    else (FileImage.readAt file (m.offset + rawrrhdrSize) (decodeUint32 raw).toNat).bind fun source =>
      (parseRr codec (max m.room (decodeUint32 raw).toNat) source).toOption.map fun rr =>
        ⟨if rr.type = soa then decodeUint32 (rr.rdata.drop (rr.rdata.length - 20)) else m.serial, m.xsize,
          (m.xpos + (rawrrhdrSize + (decodeUint32 raw).toNat)) % 2 ^ 32, max m.room (decodeUint32 raw).toNat,
          m.offset + rawrrhdrSize + (decodeUint32 raw).toNat⟩

theorem readBoundary_cases (j : DnsJournal) :
    (∃ r, readBoundary j = stop r ∧ boundaryAt j.file j.mark = none) ∨
    ∃ o it, readBoundary j = .ok { j.moved o with it := it } ∧ it.epos = j.it.epos ∧ j.offset ≤ o ∧
      boundaryAt j.file j.mark = some (DnsJournal.mark { j.moved o with it := it }) := by
  unfold readBoundary boundaryAt
  by_cases hx : j.it.xpos = j.it.xsize
  · rw [if_pos hx, if_pos (show j.mark.xpos = j.mark.xsize from hx)]
    obtain ⟨r, hread, hnone⟩ | ⟨x, hread, hsome⟩ := readXhdr_cases j
    · rw [hread, show xhdrAt j.file j.mark.offset = none from hnone]
      exact .inl ⟨r, rfl, rfl⟩
    rw [hread, show xhdrAt j.file j.mark.offset = some x from hsome, ok_then, Option.bind_some]
    simp only
    split
    next hzero => exact .inl ⟨.unexpected, rfl, if_neg (fun hand => hand.1 hzero)⟩
    next hzero =>
      split
      next hserial => exact .inl ⟨.unexpected, rfl, if_neg (fun hand => hserial hand.2)⟩
      next hserial => exact .inr ⟨_, _, rfl, rfl, Nat.le_add_right _ _, if_pos ⟨hzero, not_not.1 hserial⟩⟩
  · rw [if_neg hx, if_neg (show ¬j.mark.xpos = j.mark.xsize from hx)]
    exact .inr ⟨j.offset, j.it, rfl, rfl, le_rfl, rfl⟩

theorem readOneRr_cases (hcodec : codec.Lawful) (hlt : j.offset < j.it.epos.offset) :
    (∃ r, readOneRr codec j = stop r ∧ recordAt codec j.file j.mark = none) ∨
    ∃ rr o it, readOneRr codec j = .ok (rr, { j.moved o with it := it }) ∧ it.epos = j.it.epos ∧ j.offset + 15 ≤ o ∧ o ≤ j.file.length ∧
      recordAt codec j.file j.mark = some (DnsJournal.mark { j.moved o with it := it }) := by
  unfold readOneRr recordAt
  rw [require_true (decide_eq_true hlt.le), ok_then, if_neg hlt.ne]
  obtain ⟨r, hb, hnone⟩ | ⟨o, it, hb, hepos, hle, hsome⟩ := readBoundary_cases j
  · rw [hb, hnone]
    exact .inl ⟨r, rfl, rfl⟩
  rw [hb, hsome, ok_then]
  simp only [Option.bind_some, DnsJournal.read, DnsJournal.moved, DnsJournal.mark]
  cases hraw : FileImage.readAt j.file o rawrrhdrSize with
  | none => exact .inl ⟨.nomore, rfl, rfl⟩
  | some raw =>
    simp only [ok_then, Option.bind_some]
    generalize (decodeUint32 raw).toNat = size
    by_cases hsize : size < 11 ∨ 70000 < size
    · rw [if_pos hsize, if_pos hsize]
      exact .inl ⟨.unexpected, rfl, rfl⟩
    rw [if_neg hsize, if_neg hsize]
    cases hsource : FileImage.readAt j.file (o + rawrrhdrSize) size with
    | none => exact .inl ⟨.nomore, rfl, rfl⟩
    | some source =>
      simp only [ok_then, Option.bind_some]
      obtain ⟨hparse, hsoa⟩ := parseRr_returns hcodec (max it.targetLength size) source
      cases hrr : parseRr codec (max it.targetLength size) source with
      | error s =>
        obtain ⟨r, rfl⟩ := hparse s hrr
        exact .inl ⟨r, rfl, rfl⟩
      | ok rr =>
        have hfile := FileImage.readAt_length hsource
        have hend : j.offset + 15 ≤ o + rawrrhdrSize + size := by
          rw [rawrrhdrSize]
          omega
        simp only [ok_then, Except.toOption, Option.map_some]
        by_cases htype : rr.type = soa
        · rw [if_pos htype, if_pos htype, soaGetserial, require_true (decide_eq_true (hsoa rr hrr htype))]
          exact .inr ⟨rr, _, _, rfl, hepos, hend, hfile, rfl⟩
        · rw [if_neg htype, if_neg htype]
          exact .inr ⟨rr, _, _, rfl, hepos, hend, hfile, rfl⟩

theorem readOneRr_returns_iff (hcodec : codec.Lawful) (j : DnsJournal) :
    Returns (readOneRr codec j) ↔ j.offset ≤ j.it.epos.offset := by
  obtain hlt | heq | hgt := lt_trichotomy j.offset j.it.epos.offset
  · refine iff_of_true ?_ hlt.le
    obtain ⟨r, hread, -⟩ | ⟨rr, o, it, hread, -⟩ := readOneRr_cases hcodec hlt
    · rw [hread]
      exact returns_stop r
    · rw [hread]
      exact returns_ok _
  · refine iff_of_true ?_ heq.le
    rw [readOneRr, require_true (decide_eq_true heq.le), ok_then, if_pos heq]
    exact returns_stop _
  · refine iff_of_false (fun hret => ?_) (not_le.2 hgt)
    rw [readOneRr, decide_eq_false (not_le.2 hgt)] at hret
    obtain ⟨r, hr⟩ := hret .assertion rfl
    cases hr

theorem readOneRr_ok {rr : Rr} (h : readOneRr codec j = .ok (rr, j')) : j.offset < j.it.epos.offset := by
  obtain ⟨u, hle, h⟩ := bind_eq_ok h
  refine lt_of_le_of_ne (of_decide_eq_true (require_ok hle)) (fun heq => ?_)
  rw [if_pos heq] at h
  cases h

/-! ### Iterations -/

/-- The journal where `dns_journal_first_rr` starts to read. -/
def firstPlace (j : DnsJournal) : DnsJournal :=
  { j.seek j.it.bpos.offset with it := { j.it with currentSerial := j.it.bpos.serial, xsize := 0, xpos := 0 } }

/-- The calls of `dns_journal_first_rr` and, as long as there are records, `dns_journal_next_rr`: what the call behind `n` records
gives. -/
inductive Calls (codec : RdataCodec) (j0 : DnsJournal) : ℕ → Exec (Rr × DnsJournal) → Prop
  | first : Calls codec j0 0 (firstRr codec j0)
  | next {n : ℕ} {rr : Rr} {j : DnsJournal} : Calls codec j0 n (.ok (rr, j)) → Calls codec j0 (n + 1) (nextRr codec j)

/-- The iteration between two serials: `dns_journal_iter_init` comes back, and where it succeeds every call for a record does, of
which there are no more than the file has records of 15 bytes. -/
def Iterable (codec : RdataCodec) (j : DnsJournal) (beginSerial endSerial : UInt32) : Prop :=
  Returns (iterInit j beginSerial endSerial) ∧
    ∀ j', iterInit j beginSerial endSerial = .ok j' → ∀ n x, Calls codec j' n x → Returns x ∧ 15 * n ≤ j.file.length

/-- A record in front of the end, and the next one. -/
def Adjacent (codec : RdataCodec) (file : Bytes) (endOffset : ℕ) (m m' : Mark) : Prop :=
  m.offset < endOffset ∧ recordAt codec file m = some m'

/-- The file is laid out from the place of the one serial to that of the other: the first is not behind the second, and the records
from it on, by their sizes, do not reach over the second. -/
def LaidOut (codec : RdataCodec) (j : DnsJournal) (beginSerial endSerial : UInt32) : Prop :=
  ∀ p p', PlaceOf j beginSerial p → PlaceOf j endSerial p' → ∀ m,
    Relation.ReflTransGen (Adjacent codec j.file p'.offset) ⟨p.serial, 0, 0, j.it.targetLength, p.offset % 2 ^ 32⟩ m → m.offset ≤ p'.offset

/-- The call behind `n` records reads from a mark that the records of the file lead to. -/
structure At (codec : RdataCodec) (j0 : DnsJournal) (n : ℕ) (j : DnsJournal) : Prop where
  file : j.file = j0.file
  state : j.state = j0.state
  header : j.header = j0.header
  index : j.index = j0.index
  epos : j.it.epos = j0.it.epos
  leads : Relation.ReflTransGen (Adjacent codec j0.file j0.it.epos.offset) (firstPlace j0).mark j.mark
  count : n = 0 ∨ 15 * n ≤ j.offset ∧ j.offset ≤ j.file.length

variable {j0 : DnsJournal}

theorem At.next (hcodec : codec.Lawful) {n : ℕ} {rr : Rr} (h : At codec j0 n j) (hread : readOneRr codec j = .ok (rr, j')) :
    At codec j0 (n + 1) j' := by
  have hlt := readOneRr_ok hread
  obtain ⟨r, hstop, -⟩ | ⟨rr', o, it, hok, hepos, hmoves, hfits, hrecord⟩ := readOneRr_cases hcodec hlt
  · cases hread.symm.trans hstop
  cases hread.symm.trans hok
  refine ⟨h.file, h.state, h.header, h.index, hepos.trans h.epos, h.leads.tail ⟨?_, ?_⟩, .inr ⟨?_, hfits⟩⟩
  · rw [← h.epos]
    exact hlt
  · rw [← h.file]
    exact hrecord
  · show 15 * (n + 1) ≤ o
    obtain rfl | hcount := h.count
    · omega
    · omega

theorem Calls.at (hcodec : codec.Lawful) {n : ℕ} {x : Exec (Rr × DnsJournal)} (h : Calls codec j0 n x) :
    ∃ j, x = readOneRr codec j ∧ At codec j0 n j := by
  induction h with
  | first => exact ⟨firstPlace j0, rfl, rfl, rfl, rfl, rfl, rfl, .refl, .inl rfl⟩
  | @next n rr j _ ih =>
    obtain ⟨j1, hread, hat⟩ := ih
    exact ⟨j, rfl, hat.next hcodec hread.symm⟩

theorem calls_of_leads (hcodec : codec.Lawful) {m : Mark}
    (h : Relation.ReflTransGen (Adjacent codec j0.file j0.it.epos.offset) (firstPlace j0).mark m) :
    ∃ n j, Calls codec j0 n (readOneRr codec j) ∧ At codec j0 n j ∧ j.mark = m := by
  induction h with
  | refl => exact ⟨0, firstPlace j0, .first, ⟨rfl, rfl, rfl, rfl, rfl, .refl, .inl rfl⟩, rfl⟩
  | @tail m m' _ hnext ih =>
    obtain ⟨n, j, hcalls, hat, rfl⟩ := ih
    obtain ⟨hlt, hrecord⟩ := hnext
    rw [← hat.epos] at hlt
    rw [← hat.file] at hrecord
    obtain ⟨r, -, hnone⟩ | ⟨rr, o, it, hok, -, -, -, hsome⟩ := readOneRr_cases hcodec hlt
    · cases hrecord.symm.trans hnone
    · refine ⟨n + 1, _, .next (hok ▸ hcalls), hat.next hcodec hok, ?_⟩
      exact Option.some.inj (hsome.symm.trans hrecord)

theorem iterable_iff (hcodec : codec.Lawful) (j : DnsJournal) (beginSerial endSerial : UInt32) :
    Iterable codec j beginSerial endSerial ↔ LaidOut codec j beginSerial endSerial := by
  rw [Iterable, LaidOut]
  obtain ⟨r, hinit, hnone⟩ | ⟨o, p, p', hinit, hp, hp'⟩ := iterInit_cases j beginSerial endSerial
  · rw [hinit]
    exact iff_of_true ⟨returns_stop r, fun j' hj' => (by cases hj')⟩ (fun p p' hb he => absurd he (hnone p p' hb))
  rw [hinit, and_iff_right (returns_ok _)]
  constructor
  · rintro h _ _ hb he m hm
    rw [hp] at hb
    rw [hp'] at he
    subst hb he
    obtain ⟨n, j1, hcalls, hat, rfl⟩ := @calls_of_leads codec { j.moved o with it := { j.it with bpos := _, epos := _ } } hcodec m hm
    have hle := (readOneRr_returns_iff hcodec j1).1 (h _ rfl n _ hcalls).1
    rwa [hat.epos] at hle
  · rintro h _ ⟨⟩ n x hcalls
    obtain ⟨j1, rfl, hat⟩ := hcalls.at hcodec
    have hle := h p p' ((hp p).2 rfl) ((hp' p').2 rfl) _ hat.leads
    refine ⟨(readOneRr_returns_iff hcodec j1).2 (by rw [hat.epos]; exact hle), ?_⟩
    have hcount := hat.count
    rw [hat.file] at hcount
    have hfile : ({ j.moved o with it := { j.it with bpos := p, epos := p' } } : DnsJournal).file = j.file := rfl
    rw [hfile] at hcount
    omega

/-! ### Transactions -/

/-- Where `dns_journal_begin_transaction` writes. -/
def newOffset (j : DnsJournal) : ℕ :=
  (if j.header.empty then rawheaderSize + j.header.indexSize * rawposSize else j.header.end_.offset) % 2 ^ 32

/-- The file with the records of a transaction behind an empty header. -/
def grownFile (j : DnsJournal) (x : Txn) : Bytes :=
  FileImage.writeAt 0 (FileImage.writeAt 0 j.file (newOffset j) (replicate rawxhdrSize 0)) (newOffset j + rawxhdrSize) x.data

/-- The transaction continues the journal: it has two SOA records, does not go back, starts where the journal ends, and what it makes
ambiguous can be stepped over. -/
def Continues (j : DnsJournal) (x : Txn) : Prop :=
  (soaSerials x.tuples).length = 2 ∧ ge x.serial1 x.serial0 = true ∧ (j.header.empty = false → x.serial0 = j.header.end_.serial ∧
    Passes (grownFile j x) j.header.end_.serial x.serial1 j.header.begin_)

/-- The transaction fits: its records into a buffer, and where it continues the journal, its entry into the index.  If the index has
only one entry, it is not in use, or goes because it is not before the new serial. -/
def Fits (j : DnsJournal) (x : Txn) : Prop :=
  x.data.length < 2 ^ 32 ∧ (Continues j x → ∀ p, j.index = [p] → p.valid = true →
    j.header.empty = false ∧ gt x.serial1 p.serial = false)

variable {q : Qsort}

theorem beginTransaction_spec (hs : j.state = .write) : ∃ j', Journal.beginTransaction j = .ok j' ∧
    j'.state = .transaction ∧ j'.nSoa = 0 ∧ j'.index = j.index ∧ j'.header = j.header ∧ j'.offset = newOffset j + rawxhdrSize ∧
    j'.file = FileImage.writeAt 0 j.file (newOffset j) (replicate rawxhdrSize 0) := by
  have hstate : (j.state == .write || j.state == .inline) = true := by rw [hs]; rfl
  have hoffset : newOffset j % 2 ^ 32 = newOffset j := Nat.mod_mod _ _
  unfold Journal.beginTransaction
  rw [require_true hstate]
  refine ⟨_, rfl, rfl, rfl, rfl, rfl, ?_, ?_⟩
  · show newOffset j % 2 ^ 32 + rawxhdrSize = _
    rw [hoffset]
  · show FileImage.writeAt 0 j.file (newOffset j % 2 ^ 32) _ = _
    rw [hoffset]

theorem note_serials {x : Txn} (j : DnsJournal) (hn : j.nSoa = 0) (htwo : (soaSerials x.tuples).length = 2) :
    ((soaSerials x.tuples).foldl DnsJournal.note j).pos₀.serial = x.serial0 ∧
      ((soaSerials x.tuples).foldl DnsJournal.note j).pos₁.serial = x.serial1 := by
  obtain ⟨s0, s1, hserials⟩ := length_eq_two.1 htwo
  rw [Txn.serial0, Txn.serial1, hserials, foldl_cons, foldl_cons, foldl_nil]
  simp only [DnsJournal.note, hn, if_true, if_neg Nat.one_ne_zero, if_pos Nat.one_lt_two]
  exact ⟨rfl, rfl⟩

theorem note_file (ss : List UInt32) (j : DnsJournal) :
    (ss.foldl DnsJournal.note j).file = j.file ∧ (ss.foldl DnsJournal.note j).offset = j.offset := by
  induction ss generalizing j with
  | nil => exact ⟨rfl, rfl⟩
  | cons s ss ih =>
    rw [foldl_cons, (ih _).1, (ih _).2, DnsJournal.note]
    split
    · exact ⟨rfl, rfl⟩
    · split <;> exact ⟨rfl, rfl⟩

theorem purge_iff (j : DnsJournal) : (∃ j', Journal.purge j = .ok j') ↔
    (j.header.empty = false → Passes j.file j.header.end_.serial j.pos₁.serial j.header.begin_) := by
  unfold Journal.purge
  cases hempty : j.header.empty with
  | true => exact iff_of_true ⟨j, rfl⟩ (fun h => (by cases h))
  | false =>
    rw [if_neg Bool.false_ne_true, forall_prop_of_true rfl, ← purgeLoop_iff]
    constructor
    · rintro ⟨j', hj'⟩
      obtain ⟨j1, hloop, -⟩ := bind_eq_ok hj'
      exact ⟨j1, hloop⟩
    · rintro ⟨j1, hloop⟩
      rw [hloop]
      exact ⟨_, rfl⟩

theorem writediff_spec {x : Txn} (hs : j.state = .transaction) (hn : j.nSoa = 0) (hall : ∀ t ∈ x.tuples, Encodable t)
    (hlt : x.data.length < 2 ^ 32) : ∃ j', writediff j x.tuples = .ok j' ∧ j'.state = .transaction ∧ j'.index = j.index ∧
      j'.header = j.header ∧ j'.file = FileImage.writeAt 0 j.file j.offset x.data ∧ j'.nSoa = (soaSerials x.tuples).length ∧
      ((soaSerials x.tuples).length = 2 → j'.pos₀.serial = x.serial0 ∧ j'.pos₁.serial = x.serial1) := by
  obtain ⟨hcount, hstate, hindex, hheader⟩ := foldl_note (soaSerials x.tuples) j
  obtain ⟨hfile, hoffset⟩ := note_file (soaSerials x.tuples) j
  rw [writediff_eq hs hall, require_true ((size_beq_iff (x.tuples.flatMap rrBytes).length).2 hlt)]
  refine ⟨_, rfl, hstate.trans hs, hindex, hheader, ?_, ?_, note_serials j hn⟩
  · show FileImage.writeAt 0 ((soaSerials x.tuples).foldl DnsJournal.note j).file _ _ = _
    rw [hfile]
    exact congrArg (fun o => FileImage.writeAt 0 j.file o x.data) hoffset
  · exact hcount.trans (by rw [hn, Nat.zero_add])

theorem commit_returns_iff {x : Txn} (hs : j'.state = .transaction) (hindex : j'.index = j.index) (hheader : j'.header = j.header)
    (hfile : j'.file = grownFile j x) (hn : j'.nSoa = (soaSerials x.tuples).length)
    (hserials : (soaSerials x.tuples).length = 2 → j'.pos₀.serial = x.serial0 ∧ j'.pos₁.serial = x.serial1) :
    Returns (commit j') ↔ (Continues j x → ∀ p, j.index = [p] → p.valid = true →
      j.header.empty = false ∧ gt x.serial1 p.serial = false) := by
  rw [commit_returns hs, hn, hheader]
  constructor
  · rintro h ⟨htwo, hge, hcont⟩ p hp hv
    obtain ⟨h0, h1⟩ := hserials htwo
    obtain ⟨j3, hpurge⟩ := (purge_iff j').2 (fun he => by rw [hfile, hheader, h1]; exact (hcont (hheader ▸ he)).2)
    have hroom := h htwo (by rw [h0, h1]; exact hge) (fun he => h0.trans (hcont he).1) j3 hpurge
    rw [(purge_ok hpurge).2, hheader, hindex, hp, h1] at hroom
    cases hempty : j.header.empty with
    | true =>
      rw [hempty, if_pos rfl] at hroom
      exact absurd (hroom p rfl) (by rw [hv]; exact Bool.noConfusion)
    | false =>
      rw [hempty, if_neg Bool.false_ne_true] at hroom
      refine ⟨rfl, Bool.eq_false_iff.2 (fun hgt => ?_)⟩
      have hkept : indexInvalidate [p] x.serial1 = [p] := by rw [indexInvalidate, map_singleton, if_pos hgt]
      exact absurd (hroom p hkept) (by rw [hv]; exact Bool.noConfusion)
  · intro h htwo hge hserial j3 hpurge p3 hp3
    obtain ⟨h0, h1⟩ := hserials htwo
    have hpasses := (purge_iff j').1 ⟨j3, hpurge⟩
    rw [hheader, hfile, h1] at hpasses
    have hcont : Continues j x := ⟨htwo, by rw [h0, h1] at hge; exact hge, fun he => ⟨h0.symm.trans (hserial he), hpasses he⟩⟩
    rw [(purge_ok hpurge).2, hheader, hindex, h1] at hp3
    by_contra hv
    have hv' := eq_true_of_ne_false hv
    cases hempty : j.header.empty with
    | true =>
      rw [hempty, if_pos rfl] at hp3
      exact absurd (h hcont p3 hp3 hv').1 (by rw [hempty]; exact Bool.noConfusion)
    | false =>
      rw [hempty, if_neg Bool.false_ne_true, indexInvalidate] at hp3
      obtain ⟨p0, hp0, hp⟩ := map_eq_singleton_iff.1 hp3
      split at hp
      next hgt => exact absurd hgt (Bool.eq_false_iff.1 (h hcont p0 hp0 (by rw [hp]; exact hv')).2)
      next =>
        rw [← hp] at hv'
        cases hv'

theorem writeTransaction_returns_iff {diff : Tuples} (hs : j.state = .write) (hall : ∀ t ∈ diff, Encodable t) :
    Returns (Journal.writeTransaction q j diff) ↔ Fits j ⟨q.sort ixfrOrder diff⟩ := by
  have hencodable : ∀ t ∈ (⟨q.sort ixfrOrder diff⟩ : Txn).tuples, Encodable t := fun t ht =>
    hall t ((q.perm ixfrOrder diff).mem_iff.1 ht)
  obtain ⟨j1, hbegin, hstate, hn, hindex, hheader, hoffset, hfile⟩ := beginTransaction_spec hs
  unfold Journal.writeTransaction
  rw [hbegin, ok_then, Fits]
  by_cases hlt : (⟨q.sort ixfrOrder diff⟩ : Txn).data.length < 2 ^ 32
  · obtain ⟨j2, hdiff, hstate2, hindex2, hheader2, hfile2, hn2, hserials⟩ := writediff_spec hstate hn hencodable hlt
    rw [show q.sort ixfrOrder diff = (⟨q.sort ixfrOrder diff⟩ : Txn).tuples from rfl, hdiff, ok_then, and_iff_right hlt]
    refine commit_returns_iff hstate2 (hindex2.trans hindex) (hheader2.trans hheader) ?_ hn2 hserials
    rw [hfile2, hfile, hoffset, grownFile]
  have hsize : (((q.sort ixfrOrder diff).flatMap rrBytes).length ==
      ((q.sort ixfrOrder diff).flatMap rrBytes).length % 2 ^ 32) = false :=
    Bool.eq_false_iff.2 (fun h => hlt ((size_beq_iff _).1 h))
  refine iff_of_false (fun h => ?_) (fun h => hlt h.1)
  rw [writediff_eq hstate hencodable, hsize] at h
  obtain ⟨r, hr⟩ := h .assertion rfl
  cases hr

/-! ### Runs -/

/-- A journal that was opened and then read and written in any order, as long as the file is laid out for what is read and the
transactions fit. -/
inductive Session (q : Qsort) (codec : RdataCodec) (file : Bytes) (write : Bool) : DnsJournal → Prop
  | opened {j : DnsJournal} : journalOpen file write = .ok j → Session q codec file write j
  | found {j j' : DnsJournal} {beginSerial endSerial : UInt32} : Session q codec file write j →
      iterInit j beginSerial endSerial = .ok j' → Session q codec file write j'
  | read {j j' j'' : DnsJournal} {beginSerial endSerial : UInt32} {n : ℕ} {rr : Rr} : Session q codec file write j →
      LaidOut codec j beginSerial endSerial → iterInit j beginSerial endSerial = .ok j' → Calls codec j' n (.ok (rr, j'')) →
      Session q codec file write j''
  | write {j j' : DnsJournal} {diff : Tuples} : Session q codec file write j → (∀ t ∈ diff, Encodable t) →
      Fits j ⟨q.sort ixfrOrder diff⟩ → writeTransaction q j diff = .ok j' → Session q codec file write j'

theorem writeTransaction_written {diff : Tuples}
    (h : Journal.writeTransaction q j diff = .ok j') : j'.state = .write := by
  obtain ⟨j1, -, h⟩ := bind_eq_ok h
  obtain ⟨j2, -, hcommit⟩ := bind_eq_ok h
  unfold commit at hcommit
  split at hcommit
  · cases hcommit
    rfl
  · split at hcommit
    · cases hcommit
    · split at hcommit
      · cases hcommit
      · split at hcommit
        · cases hcommit
        · obtain ⟨j3, -, h⟩ := bind_eq_ok hcommit
          obtain ⟨index, -, h⟩ := bind_eq_ok h
          cases h
          rfl
  · cases hcommit

theorem iterInit_state {beginSerial endSerial : UInt32} (h : iterInit j beginSerial endSerial = .ok j') : j'.state = j.state := by
  obtain ⟨r, hinit, -⟩ | ⟨o, p, p', hinit, -⟩ := iterInit_cases j beginSerial endSerial
  · cases h.symm.trans hinit
  · cases h.symm.trans hinit
    rfl

theorem Session.state (hcodec : codec.Lawful) {file : Bytes} (h : Session q codec file true j) : j.state = .write := by
  induction h with
  | opened hopen => exact (journalOpen_ok hopen).2
  | found _ hinit ih => exact (iterInit_state hinit).trans ih
  | @read j j' j'' b e n rr _ _ hinit hcalls ih =>
    obtain ⟨j1, hread, hat⟩ := hcalls.at hcodec
    exact (hat.next hcodec hread.symm).state.trans ((iterInit_state hinit).trans ih)
  | write _ _ _ hok _ => exact writeTransaction_written hok

/-- **Corrupt journals.**  Whatever bytes follow the format: the journal is opened or refused exactly when the size of its index fits.
However it was read and written since, an iteration comes back exactly when the file is laid out for it, and writing a transaction
exactly when the transaction fits. -/
theorem corrupt_journal {codec : RdataCodec} (hcodec : codec.Lawful) (q : Qsort) {file : Bytes}
    (hformat : file.take 16 = format) (write : Bool) : (Returns (journalOpen file write) ↔ IndexFits file) ∧
    ∀ j, Session q codec file write j →
      (∀ beginSerial endSerial, Iterable codec j beginSerial endSerial ↔ LaidOut codec j beginSerial endSerial) ∧
      (write = true → ∀ diff, (∀ t ∈ diff, Encodable t) → (Returns (writeTransaction q j diff) ↔ Fits j ⟨q.sort ixfrOrder diff⟩)) := by
  refine ⟨journalOpen_returns_iff hformat write, fun j hj => ⟨iterable_iff hcodec j, ?_⟩⟩
  rintro rfl diff hall
  exact writeTransaction_returns_iff (hj.state hcodec) hall

/-- `dns_rdata_fromwire` where it takes the bytes as they are and has a look at the length of a SOA record. -/
def checkedCodec : RdataCodec :=
  ⟨fun _ type room r => if type = soa ∧ r.length < 20 then stop .unexpectedend else if r.length ≤ room then .ok r else stop .nospace⟩

theorem checkedCodec_lawful : checkedCodec.Lawful where
  returns rdclass type room r := by
    rw [checkedCodec]
    simp only
    split
    · exact returns_stop _
    split
    · exact returns_ok r
    · exact returns_stop _
  soa_le rdclass room r rdata h := by
    simp only [checkedCodec, true_and] at h
    split at h
    next => cases h
    next hlen =>
      split at h
      · cases h
        omega
      · cases h

/-- A journal of one transaction, with an index of one entry that is not in use. -/
def soaFile : Bytes :=
  (⟨⟨1, 72⟩, ⟨2, 158⟩, 1, 0, false⟩ : Header).encode ++ (encodeIndex [.invalid] ++ (soaTxn 1 2).bytes)

theorem soaFile_onDisk : OnDisk soaFile ⟨⟨1, 72⟩, ⟨2, 158⟩, 1, 0, false⟩ [.invalid] (soaTxn 1 2).bytes where
  file_eq := rfl
  size := rfl
  length_lt := by
    rw [show soaFile.length = 158 from rfl]
    decide
  begin_lt := by decide
  end_lt := by decide
  index_lt p hp := by
    rw [mem_singleton.1 hp]
    decide

theorem soaTuple_checked (op : DiffOp) (serial : ℕ) : Storable checkedCodec (soaTuple op serial) where
  owner := ⟨⟨⟨[[]]⟩, by decide, by decide⟩, rfl⟩
  ttl_lt := Nat.two_pow_pos 32
  rdata_lt := show 22 < 65536 by decide
  read room h := by
    show (if soa = soa ∧ 22 < 20 then stop .unexpectedend else if _ ≤ room then .ok _ else stop .nospace) = _
    rw [if_neg (by decide)]
    exact if_pos h
  soa_le _ := show 20 ≤ 22 by decide

theorem recordAt_soa (op : DiffOp) (serial : ℕ) {file : Bytes} {m : Mark} (m' : Mark) (hb : boundaryAt file m = some m')
    (hraw : FileImage.readAt file m'.offset 4 = some [0, 0, 0, 33])
    (hsource : FileImage.readAt file (m'.offset + 4) 33 = some (rrData (soaTuple op serial))) :
    recordAt checkedCodec file m = some ⟨decodeUint32 (uint32Bytes serial), m'.xsize, (m'.xpos + 37) % 2 ^ 32, max m'.room 33, m'.offset + 37⟩ := by
  have hparse : parseRr checkedCodec (max m'.room 33) (rrData (soaTuple op serial)) = .ok (rrOf (soaTuple op serial)) :=
    (soaTuple_checked op serial).parseRr (le_max_right _ _)
  rw [recordAt, hb, Option.bind_some, rawrrhdrSize, hraw, Option.bind_some, show (decodeUint32 [0, 0, 0, 33]).toNat = 33 from rfl,
    if_neg (by decide), hsource, Option.bind_some, hparse]
  rfl

theorem soaFile_first (room : ℕ) : recordAt checkedCodec soaFile ⟨1, 0, 0, room, 72⟩ = some ⟨1, 74, 37, max room 33, 121⟩ :=
  recordAt_soa .del 1 ⟨1, 74, 0, room, 84⟩ rfl rfl rfl

set_option maxRecDepth 2000 in
theorem soaFile_second (room : ℕ) : recordAt checkedCodec soaFile ⟨1, 74, 37, room, 121⟩ = some ⟨2, 74, 74, max room 33, 158⟩ :=
  recordAt_soa .add 2 ⟨1, 74, 37, room, 121⟩ rfl rfl rfl

section soaFile

variable {j : DnsJournal} (hfile : j.file = soaFile) (hheader : j.header = ⟨⟨1, 72⟩, ⟨2, 158⟩, 1, 0, false⟩) (hindex : j.index = [.invalid])

include hheader

theorem soaFile_end {p : Pos} : PlaceOf j 2 p ↔ p = ⟨2, 158⟩ := by
  rw [PlaceOf, hheader, if_pos rfl, and_iff_right (show gt (1 : UInt32) 2 = false by decide),
    and_iff_right (show gt (2 : UInt32) 2 = false by decide)]

include hindex

theorem soaFile_begin {p : Pos} : PlaceOf j 1 p ↔ p = ⟨1, 72⟩ := by
  rw [PlaceOf, hheader, if_neg (by decide), hindex, and_iff_right (show gt (1 : UInt32) 1 = false by decide),
    and_iff_right (show gt (1 : UInt32) 2 = false by decide)]
  constructor
  · intro hp
    cases hp with
    | here => rfl
    | next hne => exact absurd rfl hne
  · rintro rfl
    exact .here rfl

include hfile

theorem soaFile_laidOut : LaidOut checkedCodec j 1 2 := by
  intro p p' hp hp' m hm
  rw [soaFile_begin hheader hindex] at hp
  rw [soaFile_end hheader] at hp'
  subst hp hp'
  rw [hfile] at hm
  obtain rfl | ⟨m1, ⟨-, h1⟩, hm⟩ := hm.cases_head
  · show (72 : ℕ) ≤ 158
    decide
  cases (soaFile_first _).symm.trans h1
  obtain rfl | ⟨m2, ⟨-, h2⟩, hm⟩ := hm.cases_head
  · show (121 : ℕ) ≤ 158
    decide
  cases (soaFile_second _).symm.trans h2
  obtain rfl | ⟨m3, ⟨h3, -⟩, -⟩ := hm.cases_head
  · exact le_rfl
  · exact absurd h3 (Nat.lt_irrefl 158)

theorem soaFile_read : ∃ j' n rr j'', iterInit j 1 2 = .ok j' ∧ Calls checkedCodec j' n (.ok (rr, j'')) ∧ j''.offset = 158 ∧
    j''.header = j.header ∧ j''.index = j.index := by
  obtain ⟨r, -, hnone⟩ | ⟨o, p, p', hinit, hp, hp'⟩ := iterInit_cases j 1 2
  · exact absurd ((soaFile_end hheader).2 rfl) (hnone _ _ ((soaFile_begin hheader hindex).2 rfl))
  have hp := (hp _).1 ((soaFile_begin hheader hindex).2 rfl)
  have hp' := (hp' _).1 ((soaFile_end hheader).2 rfl)
  subst hp hp'
  have hleads : Relation.ReflTransGen (Adjacent checkedCodec j.file 158) ⟨1, 0, 0, j.it.targetLength, 72⟩
      ⟨1, 74, 37, max j.it.targetLength 33, 121⟩ := by
    refine .single ⟨show (72 : ℕ) < 158 by decide, ?_⟩
    rw [hfile]
    exact soaFile_first _
  obtain ⟨n, j1, hcalls, hat, hmark⟩ :=
    @calls_of_leads checkedCodec { j.moved o with it := { j.it with bpos := ⟨1, 72⟩, epos := ⟨2, 158⟩ } } checkedCodec_lawful _ hleads
  have hoffset : j1.offset = 121 := congrArg Mark.offset hmark
  have hlt : j1.offset < j1.it.epos.offset := by
    rw [hat.epos, hoffset]
    show (121 : ℕ) < 158
    decide
  have hrecord : recordAt checkedCodec j1.file j1.mark = some ⟨2, 74, 74, max (max j.it.targetLength 33) 33, 158⟩ := by
    rw [hmark, hat.file]
    show recordAt checkedCodec j.file _ = _
    rw [hfile]
    exact soaFile_second _
  obtain ⟨r, -, hnone⟩ | ⟨rr, o', it, hread, -, -, -, hsome⟩ := readOneRr_cases checkedCodec_lawful hlt
  · cases hrecord.symm.trans hnone
  rw [hread] at hcalls
  refine ⟨_, n, rr, _, hinit, hcalls, ?_, hat.header, hat.index⟩
  exact congrArg Mark.offset (Option.some.inj (hsome.symm.trans hrecord))

end soaFile

theorem corrupt_journal_soas : ∃ j j' n rr j'', journalOpen soaFile true = .ok j ∧ Iterable checkedCodec j 1 2 ∧
    iterInit j 1 2 = .ok j' ∧ Calls checkedCodec j' n (.ok (rr, j'')) ∧ j''.offset = 158 ∧
    Returns (writeTransaction .mergeSort j'' (soaTxn 2 3).tuples) := by
  obtain ⟨j, hopen, hfile, hheader, hindex, -⟩ := soaFile_onDisk.journalOpen true
  obtain ⟨-, hsession⟩ := corrupt_journal checkedCodec_lawful .mergeSort (show soaFile.take 16 = format from rfl) true
  obtain ⟨j', n, rr, j'', hinit, hcalls, hoffset, hheader', hindex'⟩ := soaFile_read hfile hheader hindex
  have hlaid := soaFile_laidOut hfile hheader hindex
  refine ⟨j, j', n, rr, j'', hopen, ((hsession j (.opened hopen)).1 1 2).2 hlaid, hinit, hcalls, hoffset, ?_⟩
  refine ((hsession j'' (.read (.opened hopen) hlaid hinit hcalls)).2 rfl _ (soaTxn_encodable 2 3)).2 ⟨?_, fun _ p hp hv => ?_⟩
  · rw [← soaTxn_sorted]
    show (74 : ℕ) < 2 ^ 32
    decide
  · rw [hindex', hindex] at hp
    cases hp
    cases hv

/-! ### A journal whose begin is behind its end -/

/-- A header that begins the journal behind the end of the file and ends it in front of that. -/
def crossedFile : Bytes := Header.encode ⟨⟨1, 1000⟩, ⟨2, 100⟩, 0, 0, false⟩

theorem crossedFile_onDisk : OnDisk crossedFile ⟨⟨1, 1000⟩, ⟨2, 100⟩, 0, 0, false⟩ [] [] where
  file_eq := rfl
  size := rfl
  length_lt := by decide
  begin_lt := by decide
  end_lt := by decide
  index_lt p hp := absurd hp not_mem_nil

/-- The iterator over a crossed journal fails its first assertion. -/
theorem crossed_asserts : crossedFile.take 16 = format ∧ ∃ j j', journalOpen crossedFile false = .ok j ∧
    iterInit j 1 2 = .ok j' ∧ ∀ codec, firstRr codec j' = .error .assertion := by
  obtain ⟨j, hopen, hfile, hheader, hindex, -⟩ := crossedFile_onDisk.journalOpen false
  have hbegin : Journal.journalFind j 1 = .ok (j, ⟨1, 1000⟩) := by
    rw [Journal.journalFind, hheader, hindex]
    exact findLoop_found rfl
  have hend : Journal.journalFind j 2 = .ok (j, ⟨2, 100⟩) := by
    rw [Journal.journalFind, hheader]
    rfl
  refine ⟨rfl, j, { j with it := { j.it with bpos := ⟨1, 1000⟩, epos := ⟨2, 100⟩ } }, hopen, ?_, fun codec => rfl⟩
  rw [iterInit, hbegin]
  simp only [ok_then, beq_self_eq_true, require_true, hend]
  rfl

end Bind9.Journal
