import Bind9.JournalCommit

/-! # Reading the journal back

The iterator over a journal returns the records of the transactions from a place to the end of the log, in the order of
the file.  Over every run of `dns_journal_write_transaction` on a fresh journal, this is the log of the transactions that
were committed. -/

namespace Bind9.Journal

open List

open Diff Serial

/-! ### One record -/

/-- Each transaction starts from the serial that the one before it leads to. -/
def Chained : UInt32 → List Txn → Prop
  | _, [] => True
  | s, x :: xs => x.serial0 = s ∧ Chained x.serial1 xs

theorem Linked.chained {e : UInt32} : ∀ {log : List Txn}, Linked e log → Chained (back e (dist log)) log
  | [], _ => trivial
  | x :: xs, h => by
    refine ⟨h.start, ?_⟩
    rw [h.1]
    exact h.2.2.2.chained
/-- The serial after reading the records `ts`. -/
def lastSerial (s : UInt32) (ts : Tuples) : UInt32 := (soaSerials ts).getLastD s

theorem lastSerial_cons (s : UInt32) (t : DiffTuple) (ts : Tuples) :
    lastSerial s (t :: ts) = lastSerial (if t.type = soa then soaSerial t else s) ts := by
  unfold lastSerial soaSerials
  by_cases ht : t.type = soa
  · rw [if_pos ht, filter_cons, if_pos (decide_eq_true ht), map_cons, getLastD_cons]
  · rw [if_neg ht, filter_cons, if_neg (by simpa using ht)]

/-- What a transaction needs to be read back. -/
structure Txn.Good (codec : RdataCodec) (x : Txn) : Prop where
  storable : ∀ t ∈ x.tuples, Storable codec t
  soas : (soaSerials x.tuples).length = 2

variable {codec : RdataCodec} {x : Txn}

theorem Txn.Good.lastSerial (h : x.Good codec) (s : UInt32) : lastSerial s x.tuples = x.serial1 := by
  obtain ⟨s0, s1, hs⟩ := length_eq_two.1 h.soas
  rw [Journal.lastSerial, Txn.serial1, hs]
  rfl

/-- The iterator has the records `ts` of a transaction and the transactions `a` in front of it. -/
structure Reading (codec : RdataCodec) (j : DnsJournal) (ts : Tuples) (a : List Txn) : Prop where
  file_eq : ∃ pre rest, j.file = pre ++ (ts.flatMap rrBytes ++ (logBytes a ++ rest)) ∧ j.offset = pre.length
  epos : j.it.epos.offset = j.offset + ((ts.flatMap rrBytes).length + (logBytes a).length)
  xpos : j.it.xpos + (ts.flatMap rrBytes).length = j.it.xsize
  xsize_lt : j.it.xsize < 2 ^ 32
  chained : Chained (lastSerial j.it.currentSerial ts) a
  storable : ∀ t ∈ ts, Storable codec t
  good : ∀ x ∈ a, x.Good codec ∧ x.data.length < 2 ^ 32

variable {j : DnsJournal} {a log : List Txn} {ts : Tuples}

theorem readOneRr_record {j1 : DnsJournal} {t : DiffTuple}
    (hlt : j.offset < j.it.epos.offset) (hb : readBoundary j = .ok j1) (h : Reading codec j1 (t :: ts) a) :
    ∃ j', readOneRr codec j = .ok (rrOf t, j') ∧ Reading codec j' ts a := by
  have ht := h.storable t mem_cons_self
  obtain ⟨hmin, hmax⟩ := ht.size_bounds
  obtain ⟨pre, rest, hfile, hoff⟩ := h.file_eq
  have hrr : rrBytes t = uint32Bytes (rrData t).length ++ rrData t := by
    rw [rrBytes, rrData_length]
  have hsplit : j1.file = pre ++ (uint32Bytes (rrData t).length ++ (rrData t ++ (ts.flatMap rrBytes ++
      (logBytes a ++ rest)))) := by
    rw [hfile, flatMap_cons, hrr]
    simp only [append_assoc]
  let j2 : DnsJournal := { j1 with offset := j1.offset + rawrrhdrSize }
  have hsize : j1.read rawrrhdrSize = .ok (uint32Bytes (rrData t).length, j2) :=
    DnsJournal.read_append hsplit hoff rfl
  have hdec : (decodeUint32 (uint32Bytes (rrData t).length)).toNat = (rrData t).length := by
    have hd := decodeUint32_nat (show (rrData t).length < 2 ^ 32 by omega) []
    rwa [append_nil] at hd
  have hsource : j2.read (rrData t).length = .ok (rrData t, { j2 with offset := j2.offset + (rrData t).length }) := by
    have hf : j2.file = (pre ++ uint32Bytes (rrData t).length) ++ (rrData t ++ (ts.flatMap rrBytes ++
        (logBytes a ++ rest))) := by
      rw [append_assoc]
      exact hsplit
    refine DnsJournal.read_append hf ?_ rfl
    rw [length_append, uint32Bytes_length, ← hoff]
    rfl
  let room := max j1.it.targetLength (rrData t).length
  have hparse : parseRr codec room (rrData t) = .ok (rrOf t) := ht.parseRr (le_max_right _ _)
  let serial := if t.type = soa then soaSerial t else j1.it.currentSerial
  have hget : t.type = soa → soaGetserial (rrOf t).rdata = .ok (soaSerial t) := by
    intro hsoa
    show soaGetserial t.rdata = _
    rw [soaGetserial, require_true (decide_eq_true (ht.soa_le hsoa))]
    rfl
  have hbytes : (rrBytes t).length = rawrrhdrSize + (rrData t).length := rrBytes_length t
  have hnowrap : (j1.it.xpos + (rawrrhdrSize + (rrData t).length)) % 2 ^ 32 =
      j1.it.xpos + (rawrrhdrSize + (rrData t).length) := by
    have hx := h.xpos
    have hlt := h.xsize_lt
    rw [flatMap_cons, length_append, hbytes] at hx
    exact Nat.mod_eq_of_lt (by omega)
  refine ⟨{ j2 with
    offset := j2.offset + (rrData t).length
    it := { j1.it with
      currentSerial := serial
      xpos := j1.it.xpos + (rawrrhdrSize + (rrData t).length)
      targetLength := room } }, ?_, ?_⟩
  · rw [readOneRr, require_true (decide_eq_true (le_of_lt hlt))]
    simp only [ok_then]
    rw [if_neg (by omega), hb]
    simp only [ok_then, hsize, hdec]
    rw [if_neg (by omega)]
    simp only [hsource, ok_then, show max j2.it.targetLength (rrData t).length = room from rfl, hparse,
      show j2.it.xpos = j1.it.xpos from rfl, hnowrap]
    by_cases hsoa : t.type = soa
    · rw [if_pos (show (rrOf t).type = soa from hsoa), hget hsoa, show serial = soaSerial t from if_pos hsoa]
      rfl
    · rw [if_neg (show ¬(rrOf t).type = soa from hsoa), show serial = j1.it.currentSerial from if_neg hsoa]
      rfl
  · have hepos := h.epos
    have hxpos := h.xpos
    rw [flatMap_cons, length_append, hbytes] at hepos hxpos
    refine ⟨⟨pre ++ rrBytes t, rest, ?_, ?_⟩, ?_, ?_, h.xsize_lt, ?_, fun x hx => h.storable x (mem_cons_of_mem t hx),
      h.good⟩
    · rw [hfile, flatMap_cons]
      simp only [append_assoc]
    · rw [length_append, hbytes, ← hoff]
      exact Nat.add_assoc _ _ _
    · show j1.it.epos.offset = j1.offset + rawrrhdrSize + (rrData t).length + _
      omega
    · show j1.it.xpos + (rawrrhdrSize + (rrData t).length) + _ = j1.it.xsize
      omega
    · have hc := h.chained
      rwa [lastSerial_cons] at hc

theorem Reading.offset_lt (h : Reading codec j ts a) (hne : ts ≠ [] ∨ a ≠ []) : j.offset < j.it.epos.offset := by
  rw [h.epos]
  obtain hne | hne := hne
  · cases ts with
    | nil => exact absurd rfl hne
    | cons t ts =>
      rw [flatMap_cons, length_append, rrBytes_length]
      omega
  · have hpos := logBytes_pos hne
    omega

theorem Reading.inside {t : DiffTuple}
    (h : Reading codec j (t :: ts) a) : ∃ j', readOneRr codec j = .ok (rrOf t, j') ∧ Reading codec j' ts a := by
  refine readOneRr_record (h.offset_lt (.inl (cons_ne_nil t ts))) ?_ h
  have hx := h.xpos
  rw [flatMap_cons, length_append, rrBytes_length] at hx
  rw [readBoundary, if_neg (by omega)]

theorem Txn.Good.data_ne (h : x.Good codec) : x.data.length ≠ 0 := by
  have hlen := h.soas
  rw [Txn.data]
  cases hts : x.tuples with
  | nil =>
    rw [hts] at hlen
    cases hlen
  | cons t ts =>
    rw [flatMap_cons, length_append, rrBytes_length]
    omega

theorem Reading.boundary (h : Reading codec j [] (x :: a)) : ∃ j1, readBoundary j = .ok j1 ∧ Reading codec j1 x.tuples a := by
  obtain ⟨hgood, hdata⟩ := h.good x mem_cons_self
  obtain ⟨pre, rest, hfile, hoff⟩ := h.file_eq
  have hsplit : j.file = pre ++ (x.xhdr.encode ++ (x.data ++ (logBytes a ++ rest))) := by
    rw [hfile, logBytes_cons, Txn.bytes, flatMap_nil, nil_append]
    simp only [append_assoc]
  have hread := DnsJournal.readXhdr_append hsplit hoff hdata
  have hserial : x.serial0 = j.it.currentSerial := h.chained.1
  refine ⟨{ j with
    offset := j.offset + rawxhdrSize
    it := { j.it with xsize := x.data.length, xpos := 0 } }, ?_, ?_⟩
  · have hx := h.xpos
    rw [readBoundary, if_pos (by simpa using hx), hread]
    simp only [ok_then]
    rw [if_neg (show ¬x.xhdr.size = 0 from hgood.data_ne),
      if_neg (not_not.2 (show x.xhdr.serial0 = j.it.currentSerial from hserial))]
    rfl
  · refine ⟨⟨pre ++ x.xhdr.encode, rest, ?_, ?_⟩, ?_, Nat.zero_add _, hdata, ?_, hgood.storable,
      fun y hy => h.good y (mem_cons_of_mem x hy)⟩
    · rw [append_assoc]
      exact hsplit
    · rw [length_append, Xhdr.encode_length, ← hoff]
    · have he := h.epos
      rw [logBytes_cons, length_append, Txn.bytes_length, flatMap_nil, length_nil] at he
      show j.it.epos.offset = j.offset + rawxhdrSize + (x.data.length + _)
      omega
    · rw [hgood.lastSerial]
      exact h.chained.2

/-! ### All records -/

/-- `first_rr` or `next_rr` returned `r`, and calling `next_rr` until `ISC_R_NOMORE` gives the records. -/
inductive Iterates (codec : RdataCodec) : Exec (Rr × DnsJournal) → List Rr → Prop
  | nomore : Iterates codec (stop .nomore) []
  | next {rr : Rr} {j : DnsJournal} {rrs : List Rr} : Iterates codec (nextRr codec j) rrs →
      Iterates codec (.ok (rr, j)) (rr :: rrs)

/-- The records of the transactions, in the order of the file. -/
def logRrs (a : List Txn) : List Rr := a.flatMap (fun x => x.tuples.map rrOf)

theorem Reading.iterates : ∀ {a : List Txn} {ts : Tuples} {j : DnsJournal},
    Reading codec j ts a → Iterates codec (readOneRr codec j) (ts.map rrOf ++ logRrs a)
  | [], [], j, h => by
    have he : j.offset = j.it.epos.offset := h.epos.symm
    rw [readOneRr, require_true (decide_eq_true (le_of_eq he))]
    simp only [ok_then]
    rw [if_pos he]
    exact .nomore
  | a, t :: ts, j, h => by
    obtain ⟨j', hread, h'⟩ := h.inside
    rw [hread]
    exact .next h'.iterates
  | x :: a, [], j, h => by
    obtain ⟨j1, hb, h1⟩ := h.boundary
    cases hts : x.tuples with
    | nil =>
      have hlen := (h.good x mem_cons_self).1.soas
      rw [hts] at hlen
      cases hlen
    | cons t ts =>
      rw [hts] at h1
      obtain ⟨j', hread, h'⟩ := readOneRr_record (h.offset_lt (.inr (cons_ne_nil x a))) hb h1
      rw [hread, logRrs, flatMap_cons, hts]
      exact .next h'.iterates
termination_by a ts => (a.length, ts.length)

/-! ### Runs -/

/-- A journal that was created and written by transactions with increasing serials, with the committed transactions;
between transactions it may be closed and opened again. -/
inductive Written (q : Qsort) (codec : RdataCodec) : DnsJournal → List Txn → Prop
  | fresh {j : DnsJournal} : journalOpen journalFileCreate true = .ok j → Written q codec j []
  | write {j j' : DnsJournal} {log : List Txn} {diff : Tuples} {x : Txn} : Written q codec j log →
      x = ⟨q.sort ixfrOrder diff⟩ → (∀ t ∈ diff, Storable codec t) → gt x.serial1 x.serial0 = true →
      writeTransaction q j diff = .ok j' → j'.file.length < 2 ^ 31 → Written q codec j' (log ++ [x])
  | reopen {j j' : DnsJournal} {log : List Txn} : Written q codec j log → journalOpen j.file true = .ok j' →
      Written q codec j' log

theorem encodeIndex_invalid : ∀ n : ℕ, encodeIndex (replicate n .invalid) = replicate (n * rawposSize) 0
  | 0 => rfl
  | n + 1 => by
    have ih := encodeIndex_invalid n
    have hinvalid : Pos.invalid.encode = replicate rawposSize 0 := rfl
    rw [encodeIndex] at ih
    rw [encodeIndex, replicate_succ, flatMap_cons, ih, hinvalid, replicate_append_replicate, rawposSize]
    congr 1
    omega

theorem journalFileCreate_onDisk : OnDisk journalFileCreate ⟨⟨0, 0⟩, ⟨0, 0⟩, 56, 0, false⟩ (replicate 56 .invalid) [] where
  file_eq := by rw [encodeIndex_invalid, append_nil, journalFileCreate]
  size := rfl
  length_lt := by
    rw [journalFileCreate, length_append, Header.encode_length, length_replicate]
    decide
  begin_lt := by decide
  end_lt := by decide
  index_lt p hp := by
    rw [eq_of_mem_replicate hp]
    decide

theorem core_fresh : Core ⟨⟨0, 0⟩, ⟨0, 0⟩, 56, 0, false⟩ (replicate 56 .invalid) [] where
  size := rfl
  two := by decide
  linked := trivial
  fresh _ := ⟨rfl, rfl⟩
  end_ h := absurd rfl h
  begin_ h := absurd rfl h
  index p hp hv := by
    rw [eq_of_mem_replicate hp] at hv
    cases hv

theorem inv_fresh (h : journalOpen journalFileCreate true = .ok j) : Inv j [] ∧ j.state = .write := by
  obtain ⟨j', hopen, hfile, hheader, hindex, hstate⟩ := journalFileCreate_onDisk.journalOpen true
  obtain rfl : j' = j := Except.ok.inj (hopen.symm.trans h)
  refine ⟨⟨?_, ?_, ?_⟩, hstate⟩
  · rw [hheader, hindex]
    exact core_fresh
  · rw [hfile, hheader, hindex]
    exact journalFileCreate_onDisk.file_eq.trans (append_assoc _ _ _).symm
  · rw [hfile]
    exact journalFileCreate_onDisk.length_lt

/-- The file of a journal can be opened. -/
theorem Inv.onDisk (h : Inv j log) : OnDisk j.file j.header j.index (logBytes log) where
  file_eq := by rw [h.file_eq, append_assoc]
  size := h.core.size
  length_lt := h.length_lt
  begin_lt := by
    have hlt := h.length_lt
    by_cases hl : log = []
    · rw [(h.core.fresh hl).1]
      decide
    obtain ⟨_, pre, hpre, hoff⟩ := h.core.begin_ hl
    rw [h.length, hpre, logBytes_append, length_append] at hlt
    omega
  end_lt := by
    have hlt := h.length_lt
    by_cases hl : log = []
    · rw [(h.core.fresh hl).2]
      decide
    rw [h.length] at hlt
    rw [h.core.end_ hl]
    omega
  index_lt p hp := by
    have hlt := h.length_lt
    by_cases hv : p.valid = true
    · obtain ⟨_, _, _, _, pre, hpre, hoff⟩ := h.core.index p hp hv
      rw [h.length, hpre, logBytes_append, length_append] at hlt
      omega
    · have hzero : p.offset = 0 := by simpa [Pos.valid] using hv
      omega

theorem Inv.reopen {j : DnsJournal} {log : List Txn} (h : Inv j log) (write : Bool) :
    ∃ j', journalOpen j.file write = .ok j' ∧ Inv j' log ∧ j'.header = j.header ∧ j'.index = j.index ∧
      j'.state = if write then .write else .read := by
  obtain ⟨j', hopen, hfile, hheader, hindex, hstate⟩ := h.onDisk.journalOpen write
  refine ⟨j', hopen, ⟨?_, ?_, ?_⟩, hheader, hindex, hstate⟩
  · rw [hheader, hindex]
    exact h.core
  · rw [hfile, hheader, hindex]
    exact h.file_eq
  · rw [hfile]
    exact h.length_lt

structure RunInv (codec : RdataCodec) (j : DnsJournal) (log : List Txn) : Prop where
  inv : Inv j log
  state : j.state = .write
  rising : Rising log
  good : ∀ x ∈ log, x.Good codec ∧ x.tuples.Pairwise (fun a b => (ixfrOrder a b).isLE = true)
  last : ∀ x ∈ log.getLast?, j.header.end_.serial = x.serial1

theorem Written.runInv {q : Qsort} (h : Written q codec j log) : RunInv codec j log := by
  induction h with
  | fresh hopen =>
    obtain ⟨hinv, hstate⟩ := inv_fresh hopen
    refine ⟨hinv, hstate, fun x hx => ?_, fun x hx => ?_, fun x hx => ?_⟩
    · cases hx
    · cases hx
    · cases hx
  | @write j j' log diff x _ hx hall hgt hok hlt ih =>
    obtain ⟨hinv, hcommitted, hsoas⟩ := ih.inv.writeTransaction ih.state hx (fun t ht => (hall t ht).encodable) hok (by omega)
    have hgood : x.Good codec := by
      refine ⟨fun t ht => ?_, hsoas⟩
      rw [hx] at ht
      exact hall t ((q.perm ixfrOrder diff).mem_iff.1 ht)
    refine ⟨hinv, hcommitted.state, fun y hy => ?_, fun y hy => ?_, fun y hy => ?_⟩
    · obtain hy | hy := mem_append.1 hy
      · exact ih.rising y hy
      · rw [mem_singleton.1 hy]
        exact hgt
    · obtain hy | hy := mem_append.1 hy
      · exact ih.good y hy
      · rw [mem_singleton.1 hy]
        refine ⟨hgood, ?_⟩
        rw [hx]
        exact q.sorted ixfrOrder diff
    · rw [getLast?_append, getLast?_singleton] at hy
      cases hy
      exact hcommitted.last
  | @reopen j j' log _ hopen ih =>
    obtain ⟨j1, hopen1, hinv, hheader, -, hstate⟩ := ih.inv.reopen true
    obtain rfl : j1 = j' := Except.ok.inj (hopen1.symm.trans hopen)
    refine ⟨hinv, hstate, ih.rising, ih.good, fun x hx => ?_⟩
    rw [hheader]
    exact ih.last x hx

/-- The journal has all transactions from its begin to its end. -/
theorem Inv.holds (h : Inv j log) : Holds j (j.header.encode ++ encodeIndex j.index) log [] :=
  ⟨by rw [append_nil, h.file_eq], h.length_lt, h.core.linked⟩

theorem journalFind_end {d : ℕ} (hd : d < 2 ^ 31) (hbegin : j.header.begin_.serial = back j.header.end_.serial d) :
    journalFind j j.header.end_.serial = .ok (j, j.header.end_) := by
  have h0 : gt j.header.begin_.serial j.header.end_.serial = false := by
    have hg := gt_back j.header.end_.serial (a := d) (b := 0) hd (by omega)
    rwa [back_zero, ← hbegin, decide_eq_false (by omega)] at hg
  have h1 : gt j.header.end_.serial j.header.end_.serial = false := by
    have hg := gt_last j.header.end_.serial (d := 0) (by omega)
    rwa [back_zero, decide_eq_false (by omega)] at hg
  rw [journalFind, h0, h1, if_neg Bool.false_ne_true, if_neg Bool.false_ne_true, if_pos rfl]

theorem Inv.iterates {pre post : List Txn} (h : Inv j (pre ++ x :: post))
    (hrising : Rising (pre ++ x :: post)) (hgood : ∀ y ∈ pre ++ x :: post, y.Good codec) (hd : dist (x :: post) < 2 ^ 31) :
    ∃ j', iterInit j x.serial0 j.header.end_.serial = .ok j' ∧ Iterates codec (firstRr codec j') (logRrs (x :: post)) := by
  have hne : pre ++ x :: post ≠ [] := by simp
  have hsuffix : x :: post <:+ pre ++ x :: post := suffix_append _ _
  have hlinked := h.core.linked.suffix hsuffix
  have hrecent : dist (recent 0 (pre ++ x :: post)) < 2 ^ 31 := by
    have hr := recent_dist (k := 0) (by omega) (pre ++ x :: post)
    omega
  have hbegin := h.core.begin_ hne
  have hindex := h.core.index
  rw [← head_length j.header j.index] at hbegin hindex
  have ha : x :: post <:+ recent 0 (pre ++ x :: post) := (suffix_recent_iff (by omega) hsuffix).2 (by omega)
  obtain ⟨o, p, hfind, hp⟩ := h.holds.journalFind (hrising.suffix (recent_suffix 0 _)) hrecent hbegin hindex ha
    (cons_ne_nil x post)
  have hend := journalFind_end (j := j.moved o) hrecent hbegin.1
  rw [← hlinked.start] at hfind
  refine ⟨{ j.moved o with it := { j.it with bpos := p, epos := j.header.end_ } }, ?_, ?_⟩
  · have hserial : (p.serial == x.serial0) = true := by
      rw [beq_iff_eq, hp.1, hlinked.start]
    rw [iterInit, hfind]
    simp only [ok_then, require_true hserial]
    rw [show j.header.end_.serial = (j.moved o).header.end_.serial from rfl, hend]
    simp only [ok_then, beq_self_eq_true, require_true]
    rfl
  · obtain ⟨hserial, pre', hlog, hoff⟩ := hp
    have hpre : pre' = pre := (append_cancel_right hlog).symm
    rw [hpre] at hoff
    -- where `dns_journal_first_rr` starts to read
    let j1 : DnsJournal := { j.seek p.offset with it := ⟨p, j.header.end_, p.serial, 0, 0, j.it.targetLength⟩ }
    have hoffset : j1.offset = p.offset := by
      have hlen := h.length
      have hlt := h.length_lt
      rw [logBytes_append, length_append] at hlen
      exact Nat.mod_eq_of_lt (by rw [hoff, head_length]; omega)
    have hreading : Reading codec j1 [] (x :: post) := by
      refine ⟨⟨(j.header.encode ++ encodeIndex j.index) ++ logBytes pre, [], ?_, ?_⟩, ?_, rfl, Nat.two_pow_pos 32, ?_, ?_, ?_⟩
      · show j.file = _
        rw [h.file_eq, logBytes_append, append_nil, flatMap_nil, nil_append]
        simp only [append_assoc]
      · rw [length_append, hoffset]
        exact hoff
      · show j.header.end_.offset = j1.offset + (0 + (logBytes (x :: post)).length)
        rw [hoffset, h.core.end_ hne, hoff, head_length, logBytes_append, length_append]
        omega
      · show Chained p.serial (x :: post)
        rw [hserial]
        exact hlinked.chained
      · intro t ht
        cases ht
      · exact fun y hy => ⟨hgood y (mem_append_right _ hy), hlinked.data_lt hy⟩
    have hiterates := hreading.iterates
    exact hiterates

/-- The journal is a log: whatever transactions with increasing serials were committed to a fresh journal, opening the
file gives the last serial, and the iterator gives the records of every transaction less than half the serial space back
and of all later ones, as they were written; and no assertion fails. -/
theorem journal_log {q : Qsort} {codec : RdataCodec} {j : DnsJournal} {log : List Txn} (h : Written q codec j log) :
    (∀ diff : Tuples, (∀ t ∈ diff, Storable codec t) → (diff.flatMap rrBytes).length < 2 ^ 32 →
      writeTransaction q j diff ≠ .error .assertion) ∧
    (∀ x ∈ log, x.tuples.Pairwise (fun a b => (ixfrOrder a b).isLE = true)) ∧
    ∀ write : Bool, ∃ j', journalOpen j.file write = .ok j' ∧ (∀ x ∈ log.getLast?, j'.header.end_.serial = x.serial1) ∧
      ∀ (pre post : List Txn) (x : Txn), log = pre ++ x :: post → dist (x :: post) ≤ 2 ^ 31 - 1 →
        ∃ j'', iterInit j' x.serial0 j'.header.end_.serial = .ok j'' ∧
          Iterates codec (firstRr codec j'') (logRrs (x :: post)) := by
  have hrun := h.runInv
  refine ⟨fun diff hall => hrun.inv.ne_assertion q hrun.state (fun t ht => (hall t ht).encodable),
    fun x hx => (hrun.good x hx).2, fun write => ?_⟩
  obtain ⟨j', hopen, hinv, hheader, -, -⟩ := hrun.inv.reopen write
  refine ⟨j', hopen, fun x hx => ?_, fun pre post x hlog hd => ?_⟩
  · rw [hheader]
    exact hrun.last x hx
  · have hrising := hrun.rising
    rw [hlog] at hinv hrising
    refine hinv.iterates hrising (fun y hy => ?_) (by omega)
    rw [← hlog] at hy
    exact (hrun.good y hy).1

/-- A SOA record of the root with the serial `serial`. -/
def soaTuple (op : DiffOp) (serial : ℕ) : DiffTuple :=
  ⟨op, ⟨[[]]⟩, 0, 1, soa, 0 :: 0 :: (uint32Bytes serial ++ replicate 16 0)⟩

/-- `dns_rdata_fromwire` where it takes the bytes as they are. -/
def plainCodec : RdataCodec := ⟨fun _ _ room r => if r.length ≤ room then .ok r else stop .nospace⟩

theorem soaTuple_storable (op : DiffOp) (serial : ℕ) : Storable plainCodec (soaTuple op serial) where
  owner := ⟨⟨⟨[[]]⟩, by decide, by decide⟩, rfl⟩
  ttl_lt := Nat.two_pow_pos 32
  rdata_lt := show 22 < 65536 by decide
  read _ h := if_pos h
  soa_le _ := show 20 ≤ 22 by decide

def addressTuple (op : DiffOp) : DiffTuple := ⟨op, ⟨[[]]⟩, 300, 1, 1, [192, 0, 2, 1]⟩

theorem addressTuple_storable (op : DiffOp) : Storable plainCodec (addressTuple op) where
  owner := ⟨⟨⟨[[]]⟩, by decide, by decide⟩, rfl⟩
  ttl_lt := show 300 < 2 ^ 32 by decide
  rdata_lt := show 4 < 65536 by decide
  read _ h := if_pos h
  soa_le h := absurd h (show ¬ (1 : UInt16) = soa by decide)

/-- A transaction that passes the end of the serial space. -/
def wrapping : Txn := ⟨[soaTuple .del 0xffffffff, soaTuple .add 1]⟩

/-- The transaction behind it has an address. -/
def addressed : Txn := ⟨[soaTuple .del 1, soaTuple .add 2, addressTuple .add]⟩

theorem addressed_good : addressed.Good plainCodec where
  storable t ht := by
    obtain rfl | rfl | rfl : t = soaTuple .del 1 ∨ t = soaTuple .add 2 ∨ t = addressTuple .add := by simpa [addressed] using ht
    · exact soaTuple_storable _ _
    · exact soaTuple_storable _ _
    · exact addressTuple_storable _
  soas := by decide

theorem wrapping_good : wrapping.Good plainCodec where
  storable t ht := by
    obtain rfl | rfl : t = soaTuple .del 0xffffffff ∨ t = soaTuple .add 1 := by simpa [wrapping] using ht
    · exact soaTuple_storable _ _
    · exact soaTuple_storable _ _
  soas := by decide

theorem Written.extend (h : Written .mergeSort plainCodec j log) (hx : x.Good plainCodec)
    (hsorted : x.tuples.Pairwise (fun a b => (ixfrOrder a b).isLE = true)) (hgt : gt x.serial1 x.serial0 = true)
    (hstep : 0 < x.step) (hlast : ∀ y ∈ log.getLast?, x.serial0 = y.serial1)
    (hlen : j.file.length + x.bytes.length < 2 ^ 31) :
    ∃ j', Written .mergeSort plainCodec j' (log ++ [x]) ∧ j'.file.length = j.file.length + x.bytes.length := by
  have hrun := h.runInv
  have hsort : x = ⟨Qsort.mergeSort.sort ixfrOrder x.tuples⟩ := by
    have hsame : Qsort.mergeSort.sort ixfrOrder x.tuples = x.tuples := mergeSort_of_pairwise hsorted
    rw [hsame]
  have hserial : log ≠ [] → x.serial0 = j.header.end_.serial := by
    intro hne
    have hmem := getLast?_eq_some_getLast hne
    rw [hlast _ hmem, hrun.last _ hmem]
  obtain ⟨j', hwrite, hlen'⟩ := hrun.inv.writeTransaction_ok hrun.state hsort (fun t ht => (hx.storable t ht).encodable) hx.soas
    (ge_iff.2 (.inl hgt)) hserial (fun _ => Nat.add_pos_left hstep _) (by omega)
  exact ⟨j', .write h hsort hx.storable hgt hwrite (by omega), hlen'⟩

theorem written_wrapping : ∃ j, Written .mergeSort plainCodec j [wrapping, addressed] := by
  obtain ⟨j, hopen, hfile, -⟩ := journalFileCreate_onDisk.journalOpen true
  have hfresh : j.file.length = 512 := by
    rw [hfile, journalFileCreate, length_append, Header.encode_length, length_replicate]
    rfl
  have hbytes : wrapping.bytes.length = 86 := by decide
  have hbytes' : addressed.bytes.length = 105 := by decide
  obtain ⟨j1, h1, hlen⟩ := (Written.fresh hopen).extend wrapping_good (by decide) (by decide) (by decide) (fun y hy => by cases hy)
    (by omega)
  obtain ⟨j2, h2, -⟩ := h1.extend addressed_good (by decide) (by decide) (by decide) (fun y hy => by cases hy; decide) (by omega)
  exact ⟨j2, h2⟩

/-- The records of both transactions are read, and those of the second alone. -/
theorem journal_log_wrapping : ∃ j, Written .mergeSort plainCodec j [wrapping, addressed] ∧
    ∃ j', journalOpen j.file false = .ok j' ∧ j'.header.end_.serial = 2 ∧ (∃ j'', iterInit j' 0xffffffff 2 = .ok j'' ∧
        Iterates plainCodec (firstRr plainCodec j'') [rrOf (soaTuple .del 0xffffffff), rrOf (soaTuple .add 1),
          rrOf (soaTuple .del 1), rrOf (soaTuple .add 2), rrOf (addressTuple .add)]) ∧ ∃ j'', iterInit j' 1 2 = .ok j'' ∧
        Iterates plainCodec (firstRr plainCodec j'') [rrOf (soaTuple .del 1), rrOf (soaTuple .add 2), rrOf (addressTuple .add)] := by
  obtain ⟨j, hj⟩ := written_wrapping
  obtain ⟨-, -, hread⟩ := journal_log hj
  obtain ⟨j', hopen, hlast, hiter⟩ := hread false
  have hend : j'.header.end_.serial = 2 := hlast addressed rfl
  rw [hend] at hiter
  exact ⟨j, hj, j', hopen, hend, hiter [] [addressed] wrapping rfl (by decide), hiter [wrapping] [] addressed rfl (by decide)⟩

end Bind9.Journal
