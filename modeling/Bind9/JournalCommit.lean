import Bind9.JournalLog

/-! # Committing a transaction

`dns_journal_write_transaction` appends one transaction to the log.  The invariant `Inv` says how the header and the
index go with the log: the header begins at the first transaction that can be addressed, and every index entry in use is
the place of such a transaction. -/

namespace Bind9.Journal

open List

open Diff Serial

/-! ### The index -/

theorem evens_subset : ∀ {index : List Pos} {p : Pos}, p ∈ evens index → p ∈ index
  | [], _, h => h
  | [_], _, h => h
  | q :: r :: ps, p, h => by
    rw [evens] at h
    obtain rfl | h := mem_cons.1 h
    · exact mem_cons_self
    · exact mem_cons_of_mem q (mem_cons_of_mem r (evens_subset h))

theorem evens_length_lt : ∀ {index : List Pos}, 2 ≤ index.length → (evens index).length < index.length
  | [_, _], _ => by simp [evens]
  | [_, _, _], _ => by simp [evens]
  | _ :: _ :: c :: d :: ps, _ => by
    have ih := evens_length_lt (show 2 ≤ (c :: d :: ps).length by simp)
    rw [evens, length_cons, length_cons, length_cons]
    omega

variable {index : List Pos}

theorem makeRoom_spec (h : 2 ≤ index.length) : (makeRoom index).length = index.length ∧
    (∃ p ∈ makeRoom index, p.valid = false) ∧ ∀ p ∈ makeRoom index, p ∈ index ∨ p = .invalid := by
  have hlt := evens_length_lt h
  rw [makeRoom]
  split
  next =>
    refine ⟨?_, ⟨.invalid, ?_, rfl⟩, fun p hp => ?_⟩
    · rw [length_append, length_replicate]
      omega
    · exact mem_append_right _ (mem_replicate.2 ⟨by omega, rfl⟩)
    · obtain hp | hp := mem_append.1 hp
      · exact .inl (evens_subset hp)
      · exact .inr (eq_of_mem_replicate hp)
  next hall =>
    refine ⟨rfl, ?_, fun p hp => .inl hp⟩
    rw [all_eq_true] at hall
    push Not at hall
    obtain ⟨p, hp, hv⟩ := hall
    exact ⟨p, hp, by simpa using hv⟩

theorem indexAdd_spec (pos : Pos) (h : 2 ≤ index.length) : ∃ index', indexAdd index pos = .ok index' ∧
    index'.length = index.length ∧ ∀ p ∈ index', p ∈ index ∨ p = .invalid ∨ p = pos := by
  obtain ⟨hlen, ⟨p, hp, hv⟩, hmem⟩ := makeRoom_spec h
  have hi : (makeRoom index).findIdx (fun p => !p.valid) < (makeRoom index).length :=
    findIdx_lt_length_of_exists ⟨p, hp, by rw [hv]; rfl⟩
  refine ⟨(makeRoom index).set ((makeRoom index).findIdx (fun p => !p.valid)) pos, ?_, ?_, fun x hx => ?_⟩
  · have hne : index ≠ [] := by
      rintro rfl
      simp at h
    rw [indexAdd, if_neg hne]
    simp only [require_true (decide_eq_true hi), ok_then]
    rfl
  · rw [length_set, hlen]
  · obtain hx | rfl := mem_or_eq_of_mem_set hx
    · obtain hx | hx := hmem x hx
      · exact .inl hx
      · exact .inr (.inl hx)
    · exact .inr (.inr rfl)

/-! ### The invariant -/

/-- Where the log starts in a file with an index of `n` entries. -/
def logStart (n : ℕ) : ℕ := rawheaderSize + n * rawposSize

structure Core (header : Header) (index : List Pos) (log : List Txn) : Prop where
  size : header.indexSize = index.length
  two : 2 ≤ index.length
  linked : Linked header.end_.serial log
  fresh : log = [] → header.begin_ = ⟨0, 0⟩ ∧ header.end_ = ⟨0, 0⟩
  end_ : log ≠ [] → header.end_.offset = logStart index.length + (logBytes log).length
  begin_ : log ≠ [] → Placed (logStart index.length) header.end_.serial log header.begin_ (recent 0 log)
  index : IndexOk (logStart index.length) header.end_.serial log (recent 0 log) index

/-- The file holds the header, the index and the log. -/
structure Inv (j : DnsJournal) (log : List Txn) : Prop where
  core : Core j.header j.index log
  file_eq : j.file = (j.header.encode ++ encodeIndex j.index) ++ logBytes log
  length_lt : j.file.length < 2 ^ 32

theorem head_length (h : Header) (index : List Pos) : (h.encode ++ encodeIndex index).length = logStart index.length := by
  rw [length_append, Header.encode_length, encodeIndex_length]
  rfl

variable {log : List Txn}

theorem logBytes_pos (h : log ≠ []) : 0 < (logBytes log).length := by
  cases log with
  | nil => exact absurd rfl h
  | cons x xs =>
    rw [logBytes_cons, length_append, Txn.bytes_length, rawxhdrSize]
    omega

theorem Placed.at_end_iff {start : ℕ} {e : UInt32} {a : List Txn} {p : Pos} (h : Placed start e log p a) :
    p.offset = start + (logBytes log).length ↔ a = [] := by
  obtain ⟨_, pre, rfl, hoff⟩ := h
  rw [hoff, logBytes_append, length_append]
  constructor
  · intro he
    by_contra hne
    have hpos := logBytes_pos hne
    omega
  · rintro rfl
    rfl

theorem recent_ne_nil {e : UInt32} : ∀ {log : List Txn}, Linked e log → log ≠ [] → recent 0 log ≠ []
  | [], _, h => absurd rfl h
  | [x], h, _ => by
    have hstep := Txn.step_lt h.2.1
    have hd : 0 + dist [x] < 2 ^ 31 := by
      rw [dist_cons, dist_nil]
      omega
    rw [recent, if_pos hd]
    exact cons_ne_nil x []
  | x :: y :: ys, h, _ => by
    rw [recent]
    split
    · exact cons_ne_nil x _
    · exact recent_ne_nil h.2.2.2 (cons_ne_nil y ys)

theorem Core.empty_iff {header : Header} (h : Core header index log) : header.empty = true ↔ log = [] := by
  rw [Header.empty, beq_iff_eq]
  constructor
  · intro he
    by_contra hne
    rw [h.end_ hne, (h.begin_ hne).at_end_iff] at he
    exact recent_ne_nil h.linked hne he
  · intro hl
    rw [(h.fresh hl).1, (h.fresh hl).2]

variable {j j' : DnsJournal}

theorem Inv.length (h : Inv j log) : j.file.length = logStart j.index.length + (logBytes log).length := by
  rw [h.file_eq, length_append, head_length]

/-- The transaction goes behind the last one. -/
theorem Inv.next_offset (h : Inv j log) :
    (if j.header.empty then rawheaderSize + j.header.indexSize * rawposSize else j.header.end_.offset) = j.file.length := by
  by_cases hl : log = []
  · rw [if_pos (h.core.empty_iff.2 hl), h.length, hl, h.core.size]
    rfl
  · rw [if_neg (fun he => hl (h.core.empty_iff.1 he)), h.core.end_ hl, h.length]

/-! ### Up to the commit -/

/-- The journal after `dns_journal_begin_transaction`. -/
def DnsJournal.begun (j : DnsJournal) : DnsJournal :=
  { j with
    file := j.file ++ replicate rawxhdrSize 0
    offset := j.file.length + rawxhdrSize
    pos₀ := { j.pos₀ with offset := j.file.length }
    pos₁ := { j.pos₁ with offset := j.file.length + rawxhdrSize }
    nSoa := 0
    state := .transaction }

theorem Inv.beginTransaction (h : Inv j log) (hs : j.state = .write) : Journal.beginTransaction j = .ok j.begun := by
  have hwrite : FileImage.writeAt 0 j.file j.file.length (replicate rawxhdrSize 0) =
      j.file ++ replicate rawxhdrSize 0 := by
    have hw := FileImage.writeAt_append 0 (a := j.file) [] (replicate rawxhdrSize 0) rfl
    rwa [append_nil, drop_nil, append_nil] at hw
  have hstate : (j.state == .write || j.state == .inline) = true := by rw [hs]; rfl
  have hoffset : j.file.length % 2 ^ 32 = j.file.length := Nat.mod_eq_of_lt h.length_lt
  rw [Journal.beginTransaction, require_true hstate]
  simp only [ok_then, h.next_offset, hoffset]
  simp only [DnsJournal.write, DnsJournal.seek, DnsJournal.moved, hoffset, hwrite, length_replicate]
  rfl

/-- What the first pass of `dns_journal_writediff` does with the serial of a SOA record. -/
def DnsJournal.note (j : DnsJournal) (serial : UInt32) : DnsJournal :=
  if j.nSoa = 0 then { j with pos₀ := { j.pos₀ with serial := serial }, nSoa := 1 }
  else if j.nSoa < 2 then { j with pos₁ := { j.pos₁ with serial := serial }, nSoa := j.nSoa + 1 }
  else { j with nSoa := j.nSoa + 1 }

theorem countSoas_eq : ∀ {ts : Tuples} (j : DnsJournal), (∀ t ∈ ts, t.type = soa → 20 ≤ t.rdata.length) →
    countSoas j ts = .ok ((soaSerials ts).foldl DnsJournal.note j)
  | [], _, _ => rfl
  | t :: ts, j, h => by
    have ih : ∀ j, countSoas j ts = .ok ((soaSerials ts).foldl DnsJournal.note j) := fun j =>
      countSoas_eq j (fun x hx => h x (mem_cons_of_mem t hx))
    rw [countSoas]
    split
    next ht =>
      have hget : soaGetserial t.rdata = .ok (soaSerial t) := by
        rw [soaGetserial, require_true (decide_eq_true (h t mem_cons_self ht))]
        rfl
      have hserials : soaSerials (t :: ts) = soaSerial t :: soaSerials ts := by
        simp only [soaSerials, filter_cons, decide_eq_true ht, if_true, map_cons]
      rw [hserials, foldl_cons, DnsJournal.note]
      split
      next hlt =>
        rw [hget]
        simp only [ok_then]
        split
        · exact ih _
        · exact ih _
      next hge =>
        rw [if_neg (by omega)]
        exact ih _
    next ht =>
      have hserials : soaSerials (t :: ts) = soaSerials ts := by
        simp only [soaSerials, filter_cons, decide_eq_false ht, Bool.false_eq_true, if_false]
      rw [hserials]
      exact ih j

/-- Noting serials changes the places of the transaction and the counter. -/
theorem foldl_note : ∀ (ss : List UInt32) (j : DnsJournal), (ss.foldl DnsJournal.note j).nSoa = j.nSoa + ss.length ∧
    (ss.foldl DnsJournal.note j).state = j.state ∧ (ss.foldl DnsJournal.note j).index = j.index ∧
    (ss.foldl DnsJournal.note j).header = j.header
  | [], _ => ⟨rfl, rfl, rfl, rfl⟩
  | s :: ss, j => by
    obtain ⟨ih1, ih2, ih3, ih4⟩ := foldl_note ss (j.note s)
    have hn : (j.note s).nSoa = j.nSoa + 1 ∧ (j.note s).state = j.state ∧ (j.note s).index = j.index ∧
        (j.note s).header = j.header := by
      rw [DnsJournal.note]
      split
      next h => exact ⟨by rw [h], rfl, rfl, rfl⟩
      next => split <;> exact ⟨rfl, rfl, rfl, rfl⟩
    rw [foldl_cons, ih1, ih2, ih3, ih4, hn.1, hn.2.1, hn.2.2.1, hn.2.2.2, length_cons]
    exact ⟨by omega, rfl, rfl, rfl⟩

/-- The journal before the commit of the transaction `x`. -/
def DnsJournal.written (j : DnsJournal) (x : Txn) : DnsJournal :=
  { j with
    file := j.file ++ (replicate rawxhdrSize 0 ++ x.data)
    offset := j.file.length + rawxhdrSize + x.data.length
    pos₀ := ⟨x.serial0, j.file.length⟩
    pos₁ := ⟨x.serial1, j.file.length + rawxhdrSize + x.data.length⟩
    nSoa := 2
    state := .transaction }

theorem begun_note (j : DnsJournal) (s0 s1 : UInt32) : [s0, s1].foldl DnsJournal.note j.begun =
    { j.begun with pos₀ := ⟨s0, j.file.length⟩, pos₁ := ⟨s1, j.file.length + rawxhdrSize⟩, nSoa := 2 } := rfl

variable {x : Txn}

theorem writediff_eq {ts : Tuples} (hs : j.state = .transaction) (h : ∀ t ∈ ts, Encodable t) :
    writediff j ts = (require ((ts.flatMap rrBytes).length == (ts.flatMap rrBytes).length % 2 ^ 32) >>= fun _ =>
      pure ({ (soaSerials ts).foldl DnsJournal.note j with
        pos₁ := ⟨((soaSerials ts).foldl DnsJournal.note j).pos₁.serial,
          ((soaSerials ts).foldl DnsJournal.note j).pos₁.offset + (ts.flatMap rrBytes).length⟩ }.write (ts.flatMap rrBytes))) := by
  have hall : ts.all (fun t => decide (t.rdata.length < 65536)) = true := by
    rw [all_eq_true]
    exact fun t ht => decide_eq_true (h t ht).rdata_lt
  have hstate : (j.state == .transaction) = true := by rw [hs]; rfl
  rw [writediff, require_true hstate, countSoas_eq _ (fun t ht => (h t ht).soa_le), hall]
  rfl

theorem size_beq_iff (n : ℕ) : (n == n % 2 ^ 32) = true ↔ n < 2 ^ 32 := by
  rw [beq_iff_eq]
  constructor
  · exact fun h => h.trans_lt (Nat.mod_lt n (Nat.two_pow_pos 32))
  · exact fun h => (Nat.mod_eq_of_lt h).symm

theorem writediff_lt {ts : Tuples} (h : writediff j ts = .ok j') : (ts.flatMap rrBytes).length < 2 ^ 32 := by
  obtain ⟨-, -, h⟩ := bind_eq_ok h
  obtain ⟨j1, -, h⟩ := bind_eq_ok h
  obtain ⟨-, -, h⟩ := bind_eq_ok h
  obtain ⟨u, hsize, -⟩ := bind_eq_ok h
  exact (size_beq_iff _).1 (require_ok hsize)

theorem writediff_begun (j : DnsJournal) (h : ∀ t ∈ x.tuples, Encodable t) (hlt : x.data.length < 2 ^ 32) :
    ∃ j2, writediff j.begun x.tuples = .ok j2 ∧ j2.nSoa = (soaSerials x.tuples).length ∧ j2.state = .transaction ∧
      j2.index = j.index ∧ ((soaSerials x.tuples).length = 2 → j2 = j.written x) := by
  let j1 := (soaSerials x.tuples).foldl DnsJournal.note j.begun
  obtain ⟨hn, hstate, hindex, -⟩ := foldl_note (soaSerials x.tuples) j.begun
  refine ⟨{ j1 with pos₁ := { j1.pos₁ with offset := j1.pos₁.offset + x.data.length } }.write x.data, ?_, ?_, hstate,
    hindex, fun hlen => ?_⟩
  · rw [writediff_eq rfl h, require_true ((size_beq_iff (x.tuples.flatMap rrBytes).length).2 hlt)]
    rfl
  · rw [hn]
    exact Nat.zero_add _
  · obtain ⟨s0, s1, hserials⟩ := length_eq_two.1 hlen
    have h0 : x.serial0 = s0 := by rw [Txn.serial0, hserials]; rfl
    have h1 : x.serial1 = s1 := by rw [Txn.serial1, hserials]; rfl
    have hj1 : j1 = { j.begun with pos₀ := ⟨s0, j.file.length⟩, pos₁ := ⟨s1, j.file.length + rawxhdrSize⟩, nSoa := 2 } := by
      show (soaSerials x.tuples).foldl DnsJournal.note j.begun = _
      rw [hserials, begun_note]
    have hwrite := FileImage.writeAt_append 0 (a := j.file ++ replicate rawxhdrSize 0) [] x.data
      (by rw [length_append, length_replicate])
    rw [append_nil, drop_nil, append_nil, append_assoc] at hwrite
    rw [hj1, DnsJournal.write, DnsJournal.written, h0, h1]
    simp only [DnsJournal.begun, hwrite]

/-! ### The purge -/

def DnsJournal.beginAt (j : DnsJournal) (p : Pos) : DnsJournal := { j with header := { j.header with begin_ := p } }

variable {serial : UInt32}

theorem purgeLoop_next {p : Pos} (hgt : gt serial j.header.begin_.serial = false)
    (h : journalNext j j.header.begin_ = .ok (j', p)) : purgeLoop j serial = purgeLoop (j'.beginAt p) serial := by
  rw [purgeLoop, hgt, if_neg Bool.false_ne_true]
  split
  next e he =>
    rw [h] at he
    cases he
  next j1 p1 he =>
    rw [h] at he
    cases he
    rfl

theorem purgeLoop_done (h : gt serial j.header.begin_.serial = true) : purgeLoop j serial = .ok j := by
  rw [purgeLoop, if_pos h]

theorem purgeLoop_spec {head rest : Bytes} {k : ℕ} (hk : k < 2 ^ 31) :
    ∀ {a : List Txn} {j : DnsJournal}, 0 < k + dist a → j.header.end_.serial = back serial k → Holds j head log rest →
    Placed head.length j.header.end_.serial log j.header.begin_ a → dist a < 2 ^ 31 →
    ∃ o p, purgeLoop j serial = .ok ((j.moved o).beginAt p) ∧
      Placed head.length j.header.end_.serial log p (recent k a)
  | [], j, hpos, hlast, h, hp, hd => by
    have hserial : j.header.begin_.serial = back serial k := by
      rw [hp.1, dist_nil, back_zero, hlast]
    have hgt : gt serial j.header.begin_.serial = true := by
      rw [hserial, gt_last serial (by omega), decide_eq_true_eq]
      exact ⟨hpos, hk⟩
    exact ⟨j.offset, j.header.begin_, purgeLoop_done hgt, hp⟩
  | x :: xs, j, hpos, hlast, h, hp, hd => by
    have hserial : j.header.begin_.serial = back serial (k + dist (x :: xs)) := by
      rw [hp.1, back_of_last hlast]
    have hgt : gt serial j.header.begin_.serial = decide (k + dist (x :: xs) < 2 ^ 31) := by
      rw [hserial, gt_last serial (by omega), decide_eq_decide]
      omega
    by_cases hlt : k + dist (x :: xs) < 2 ^ 31
    · rw [decide_eq_true hlt] at hgt
      exact ⟨j.offset, j.header.begin_, purgeLoop_done hgt, by rwa [recent, if_pos hlt]⟩
    rw [decide_eq_false hlt] at hgt
    obtain ⟨o, p', hnext, hp'⟩ := h.journalNext hp (by omega) hd
    have hle : dist xs ≤ dist (x :: xs) := dist_le_of_suffix (suffix_cons x xs)
    obtain ⟨o', q, hloop, hq⟩ := purgeLoop_spec hk (j := (j.moved o).beginAt p') (by omega) hlast
      ⟨h.file_eq, h.length_lt, h.linked⟩ hp' (lt_of_le_of_lt hle hd)
    refine ⟨o', q, ?_, by rwa [recent, if_neg hlt]⟩
    rw [purgeLoop_next hgt hnext, hloop]
    rfl

theorem purgeLoop_stuck (h : j.header.begin_.serial = j.header.end_.serial) :
    purgeLoop j j.header.end_.serial = stop .nomore := by
  have hgt : gt j.header.end_.serial j.header.begin_.serial = false := by
    rw [h]
    exact gt_eq_false_of_ge (ge_iff.2 (.inr rfl))
  have hnext : journalNext j j.header.begin_ = stop .nomore := journalNext_end h
  rw [purgeLoop, hgt, if_neg Bool.false_ne_true]
  split
  next e he =>
    rw [hnext] at he
    cases he
    rfl
  next j1 p he =>
    rw [hnext] at he
    cases he

theorem Placed.snoc {start : ℕ} {e e' : UInt32} {log a : List Txn} {p : Pos} {x : Txn} (h : Placed start e log p a)
    (he : e = back e' x.step) : Placed start e' (log ++ [x]) p (a ++ [x]) := by
  obtain ⟨hserial, pre, rfl, hoff⟩ := h
  refine ⟨?_, pre, append_assoc _ _ _, hoff⟩
  rw [hserial, back_of_last he, dist_append, dist_cons, dist_nil]
  congr 1
  omega

theorem IndexOk.invalidate {start : ℕ} {e e' : UInt32}
    (h : IndexOk start e log (recent 0 log) index) (he : e = back e' x.step) (hx : x.step < 2 ^ 31) :
    IndexOk start e' (log ++ [x]) (recent 0 (log ++ [x])) (indexInvalidate index e') := by
  intro p hp hv
  obtain ⟨q, hq, rfl⟩ := mem_map.1 hp
  by_cases hgt : gt e' q.serial = true
  · rw [if_pos hgt] at hv ⊢
    obtain ⟨a, hne, ha, hplaced⟩ := h q hq hv
    have hd := lt_of_le_of_lt (dist_le_of_suffix ha) (show dist (recent 0 log) < 2 ^ 31 by
      have := recent_dist (k := 0) (by omega) log
      omega)
    rw [hplaced.1, back_of_last he, gt_last e' (by omega), decide_eq_true_eq] at hgt
    have hsuffix : a <:+ recent x.step log := (suffix_recent_iff hx hplaced.suffix).2 hgt.2
    refine ⟨a ++ [x], by simp, ?_, hplaced.snoc he⟩
    obtain ⟨c, hc⟩ := hsuffix
    rw [recent_snoc x hx, ← hc]
    exact ⟨c, by rw [append_assoc]⟩
  · rw [if_neg hgt] at hv
    cases hv

/-- The index after the purge before the commit of `x`. -/
def purgedIndex (j : DnsJournal) (x : Txn) : List Pos :=
  if j.header.empty then j.index else indexInvalidate j.index x.serial1

@[simp] theorem purgedIndex_length (j : DnsJournal) (x : Txn) : (purgedIndex j x).length = j.index.length := by
  rw [purgedIndex]
  split
  · rfl
  · exact length_map _

/-- The journal `j1` after the purge before the commit of `x`. -/
structure Purged (j : DnsJournal) (log : List Txn) (x : Txn) (j1 : DnsJournal) (p : Pos) : Prop where
  eq : ∃ o, j1 = { ((j.written x).moved o).beginAt p with index := purgedIndex j x }
  index : IndexOk (logStart j.index.length) x.serial1 (log ++ [x]) (recent 0 (log ++ [x])) (purgedIndex j x)
  empty : p.offset = j.header.end_.offset → recent x.step log = []
  placed : p.offset ≠ j.header.end_.offset →
    Placed (logStart j.index.length) x.serial1 (log ++ [x]) p (recent 0 (log ++ [x]))

/-- The purge before the commit of `x` succeeds unless neither the transactions in the journal nor `x` move the serial. -/
theorem Inv.purge_ok (h : Inv j log) (hge : ge x.serial1 x.serial0 = true)
    (h0 : log ≠ [] → x.serial0 = j.header.end_.serial) (hlen : (j.written x).file.length < 2 ^ 32)
    (hmoves : log ≠ [] → 0 < x.step + dist (recent 0 log)) :
    ∃ j1 p, Journal.purge (j.written x) = .ok j1 ∧ Purged j log x j1 p := by
  have hlt := Txn.step_lt hge
  by_cases hl : log = []
  · -- nothing to purge, and no entry of the index is in use
    have hempty : j.header.empty = true := h.core.empty_iff.2 hl
    have hindex : purgedIndex j x = j.index := if_pos hempty
    refine ⟨j.written x, j.header.begin_, if_pos hempty, ⟨(j.written x).offset, by rw [hindex]; rfl⟩, ?_, fun _ => ?_,
      fun hne => ?_⟩
    · intro p hp hv
      rw [hindex] at hp
      obtain ⟨a, hne, ha, -⟩ := h.core.index p hp hv
      rw [hl] at ha
      exact absurd (suffix_nil.1 ha) hne
    · rw [hl]
      rfl
    · rw [(h.core.fresh hl).1, (h.core.fresh hl).2] at hne
      exact absurd rfl hne
  have hlast : j.header.end_.serial = back x.serial1 x.step := by
    rw [← h0 hl]
    exact eq_back _ _
  have hempty : ¬j.header.empty = true := fun he => hl (h.core.empty_iff.1 he)
  have hholds : Holds (j.written x) (j.header.encode ++ encodeIndex j.index) log
      (replicate rawxhdrSize 0 ++ x.data) := by
    refine ⟨?_, hlen, h.core.linked⟩
    show j.file ++ _ = _
    rw [h.file_eq, append_assoc]
  have hbegin := h.core.begin_ hl
  have hrecent : dist (recent 0 log) < 2 ^ 31 := by
    have hd := recent_dist (k := 0) (by omega) log
    omega
  rw [← head_length j.header j.index] at hbegin
  obtain ⟨o, p, hloop, hp⟩ := purgeLoop_spec hlt (j := j.written x) (hmoves hl) hlast hholds hbegin hrecent
  rw [recent_recent, head_length] at hp
  have hindex : purgedIndex j x = indexInvalidate j.index x.serial1 := if_neg hempty
  refine ⟨_, p, ?_, ⟨o, rfl⟩, ?_, fun he => ?_, fun _ => ?_⟩
  · rw [Journal.purge, if_neg (show ¬(j.written x).header.empty = true from hempty), hindex]
    simp only [show (j.written x).pos₁.serial = x.serial1 from rfl, hloop, ok_then]
    rfl
  · rw [hindex]
    exact h.core.index.invalidate hlast hlt
  · rw [h.core.end_ hl] at he
    exact hp.at_end_iff.1 he
  · rw [recent_snoc x hlt]
    exact hp.snoc hlast

theorem Inv.purge_moves {j1 : DnsJournal} (h : Inv j log)
    (h0 : log ≠ [] → x.serial0 = j.header.end_.serial) (hok : Journal.purge (j.written x) = .ok j1) (hl : log ≠ []) :
    0 < x.step + dist (recent 0 log) := by
  by_contra hzero
  have hstep : x.step = 0 := by omega
  have hdist : dist (recent 0 log) = 0 := by omega
  have hend : j.header.end_.serial = x.serial1 := by
    rw [← h0 hl, eq_back x.serial1 x.serial0, ← Txn.step, hstep, back_zero]
  have hempty : ¬(j.written x).header.empty = true := fun he => hl (h.core.empty_iff.1 he)
  have hbegin : (j.written x).header.begin_.serial = (j.written x).header.end_.serial := by
    show j.header.begin_.serial = j.header.end_.serial
    rw [(h.core.begin_ hl).1, hdist, back_zero]
  have hloop : purgeLoop (j.written x) (j.written x).pos₁.serial = stop .nomore := by
    rw [show (j.written x).pos₁.serial = (j.written x).header.end_.serial from hend.symm]
    exact purgeLoop_stuck hbegin
  rw [Journal.purge, if_neg hempty, hloop] at hok
  cases hok

/-! ### The commit -/

theorem commit_writes {header : Header} (header' : Header) {index' : List Pos} (log : List Txn) (x : Txn)
    {file : Bytes} (hlen : index'.length = index.length)
    (hfile : file = (header.encode ++ encodeIndex index) ++ logBytes log ++ (replicate rawxhdrSize 0 ++ x.data)) :
    FileImage.writeAt 0 (FileImage.writeAt 0 (FileImage.writeAt 0 file (logStart index.length + (logBytes log).length)
      x.xhdr.encode) 0 header'.encode) rawheaderSize (encodeIndex index') =
      (header'.encode ++ encodeIndex index') ++ logBytes (log ++ [x]) := by
  have hxhdr : FileImage.writeAt 0 file (logStart index.length + (logBytes log).length) x.xhdr.encode =
      (header.encode ++ encodeIndex index) ++ logBytes log ++ (x.xhdr.encode ++ x.data) := by
    rw [hfile]
    exact FileImage.writeAt_segment 0 _ (by rw [length_append, head_length]) (by rw [length_replicate]; rfl)
  have hrest : (header.encode ++ encodeIndex index) ++ logBytes log ++ (x.xhdr.encode ++ x.data) =
      [] ++ (header.encode ++ (encodeIndex index ++ logBytes (log ++ [x]))) := by
    rw [logBytes_append, logBytes_cons, Txn.bytes]
    simp only [logBytes, flatMap_nil, append_nil, append_assoc, nil_append]
  have hheader : FileImage.writeAt 0 ([] ++ (header.encode ++ (encodeIndex index ++ logBytes (log ++ [x])))) 0
      header'.encode = header'.encode ++ (encodeIndex index ++ logBytes (log ++ [x])) :=
    FileImage.writeAt_segment 0 _ rfl (by rw [Header.encode_length, Header.encode_length])
  rw [hxhdr, hrest, hheader, FileImage.writeAt_segment 0 _ header'.encode_length.symm
    (by rw [encodeIndex_length, encodeIndex_length, hlen]), append_assoc]

/-- The header and the index after the commit of `x`. -/
theorem Core.snoc {header : Header} {index index' : List Pos} {log : List Txn} {x : Txn} {p : Pos}
    (h : Core header index log) (h0 : log ≠ [] → x.serial0 = header.end_.serial) (hge : ge x.serial1 x.serial0 = true)
    (hx : x.data.length < 2 ^ 32) (hlen : index'.length = index.length)
    (hbegin : Placed (logStart index.length) x.serial1 (log ++ [x]) p (recent 0 (log ++ [x])))
    (hindex : IndexOk (logStart index.length) x.serial1 (log ++ [x]) (recent 0 (log ++ [x])) index') :
    Core { header with
      begin_ := p
      end_ := ⟨x.serial1, logStart index.length + (logBytes log).length + rawxhdrSize + x.data.length⟩ } index'
      (log ++ [x]) where
  size := by rw [hlen, ← h.size]
  two := by rw [hlen]; exact h.two
  linked := by
    by_cases hl : log = []
    · rw [hl]
      exact Linked.snoc rfl hge hx trivial
    · exact Linked.snoc (h0 hl) hge hx h.linked
  fresh hn := by simp at hn
  end_ _ := by
    rw [hlen, logBytes_append, length_append, logBytes_cons, length_append, Txn.bytes_length]
    simp only [logBytes, flatMap_nil, length_nil]
    omega
  begin_ _ := by rw [hlen]; exact hbegin
  index := by rw [hlen]; exact hindex

/-- The journal `j'` after the commit of `x`. -/
structure Committed (j : DnsJournal) (log : List Txn) (x : Txn) (j' : DnsJournal) : Prop where
  state : j'.state = .write
  last : j'.header.end_.serial = x.serial1
  index : indexAdd (purgedIndex j x) ⟨x.serial0, j.file.length⟩ = .ok j'.index
  length : j'.index.length = j.index.length
  file_eq : j'.file = (j'.header.encode ++ encodeIndex j'.index) ++ logBytes (log ++ [x])
  core : Core j'.header j'.index (log ++ [x])

theorem Inv.commitFiles (h : Inv j log) (hge : ge x.serial1 x.serial0 = true)
    (h0 : log ≠ [] → x.serial0 = j.header.end_.serial) (hlen : (j.written x).file.length < 2 ^ 32)
    (hmoves : log ≠ [] → 0 < x.step + dist (recent 0 log)) :
    ∃ j', Journal.commitFiles (j.written x) = .ok j' ∧ Committed j log x j' := by
  have hlt := Txn.step_lt hge
  obtain ⟨j1, p, hpurge, hp⟩ := h.purge_ok hge h0 hlen hmoves
  obtain ⟨o, rfl⟩ := hp.eq
  -- the header that is written
  let begin' : Pos := if (p.offset == j.header.end_.offset) = true then ⟨x.serial0, j.file.length⟩ else p
  let header' : Header := { j.header with
    begin_ := begin'
    end_ := ⟨x.serial1, j.file.length + rawxhdrSize + x.data.length⟩ }
  have hbegin : Placed (logStart j.index.length) x.serial1 (log ++ [x]) begin' (recent 0 (log ++ [x])) := by
    by_cases he : p.offset = j.header.end_.offset
    · rw [show begin' = ⟨x.serial0, j.file.length⟩ from if_pos (beq_iff_eq.2 he), recent_snoc x hlt, hp.empty he]
      refine ⟨?_, log, rfl, h.length⟩
      rw [nil_append, dist_cons, dist_nil]
      exact eq_back _ _
    · rw [show begin' = p from if_neg (fun hb => he (beq_iff_eq.1 hb))]
      exact hp.placed he
  obtain ⟨index', hadd, hlen', hmem⟩ := indexAdd_spec ⟨x.serial0, j.file.length⟩
    (show 2 ≤ (purgedIndex j x).length by rw [purgedIndex_length]; exact h.core.two)
  rw [purgedIndex_length] at hlen'
  have hindex' : IndexOk (logStart j.index.length) x.serial1 (log ++ [x]) (recent 0 (log ++ [x])) index' := by
    intro q hq hv
    obtain hq | rfl | rfl := hmem q hq
    · exact hp.index q hq hv
    · cases hv
    · refine ⟨[x], cons_ne_nil x [], ?_, ?_, log, rfl, h.length⟩
      · rw [recent_snoc x hlt]
        exact suffix_append _ _
      · rw [dist_cons, dist_nil]
        exact eq_back _ _
  have hsize : j.file.length + rawxhdrSize + x.data.length - j.file.length - rawxhdrSize = x.data.length := by omega
  have hnonzero : ¬header'.indexSize = 0 := by
    have htwo := h.core.two
    rw [h.core.size]
    omega
  have hoffset : j.file.length % 2 ^ 32 = j.file.length := Nat.mod_eq_of_lt h.length_lt
  have hwrites := commit_writes header' log x hlen' (show (j.written x).file = _ by rw [← h.file_eq]; rfl)
  rw [← h.length] at hwrites
  have hdata : x.data.length < 2 ^ 32 := by
    have hfile : (j.written x).file.length = j.file.length + (rawxhdrSize + x.data.length) := by
      rw [DnsJournal.written, length_append, length_append, length_replicate]
    omega
  refine ⟨{ j.written x with
    file := (header'.encode ++ encodeIndex index') ++ logBytes (log ++ [x])
    offset := rawheaderSize + (encodeIndex index').length
    header := header'
    index := index'
    state := .write }, ?_, rfl, rfl, hadd, hlen', rfl, ?_⟩
  · rw [Journal.commitFiles, hpurge]
    simp only [ok_then, DnsJournal.beginAt, DnsJournal.seek, DnsJournal.moved, DnsJournal.written, DnsJournal.write, hadd, hsize,
      hoffset]
    rw [indexToDisk, if_neg hnonzero]
    exact congrArg (fun f => Except.ok { j.written x with
      file := f, offset := rawheaderSize + (encodeIndex index').length, header := header', index := index',
      state := State.write }) hwrites
  · have hcore := h.core.snoc h0 hge hdata hlen' hbegin hindex'
    rwa [← h.length] at hcore

/-! ### Files grow -/

theorem purgeLoop_ok (serial : UInt32) (j : DnsJournal) :
    ∀ j', purgeLoop j serial = .ok j' → ∃ o p, j' = (j.moved o).beginAt p := by
  induction j using purgeLoop.induct serial with
  | case1 j hgt =>
    intro j' h
    rw [purgeLoop_done hgt] at h
    cases h
    exact ⟨j.offset, j.header.begin_, rfl⟩
  | case2 j hgt e he =>
    intro j' h
    rw [purgeLoop, if_neg hgt] at h
    split at h
    next => cases h
    next j1 p he' =>
      rw [he] at he'
      cases he'
  | case3 j hgt j1 p he ih =>
    intro j' h
    rw [purgeLoop_next (Bool.eq_false_iff.2 hgt) he] at h
    obtain ⟨o, q, rfl⟩ := ih j' h
    obtain ⟨⟨o1, rfl⟩, -⟩ := journalNext_ok he
    exact ⟨o, q, rfl⟩

theorem purge_ok (h : purge j = .ok j') :
    j'.file = j.file ∧ j'.index = if j.header.empty then j.index else indexInvalidate j.index j.pos₁.serial := by
  unfold purge at h
  split at h
  next he =>
    cases h
    exact ⟨rfl, (if_pos he).symm⟩
  next he =>
    obtain ⟨j1, hloop, h⟩ := bind_eq_ok h
    cases h
    obtain ⟨o, p, rfl⟩ := purgeLoop_ok _ _ _ hloop
    exact ⟨rfl, (if_neg he).symm⟩

theorem indexToDisk_length_le (j : DnsJournal) : j.file.length ≤ (indexToDisk j).file.length := by
  rw [indexToDisk]
  split
  · exact le_rfl
  · exact FileImage.length_le_writeAt _ _ _ _

theorem commitFiles_length_le (h : Journal.commitFiles j = .ok j') : j.file.length ≤ j'.file.length := by
  obtain ⟨j1, hpurge, h⟩ := bind_eq_ok h
  obtain ⟨index, -, h⟩ := bind_eq_ok h
  cases h
  rw [← (purge_ok hpurge).1]
  refine le_trans ?_ (indexToDisk_length_le _)
  exact (FileImage.length_le_writeAt _ _ _ _).trans (FileImage.length_le_writeAt _ _ _ _)

theorem countSoas_file : ∀ {ts : Tuples} {j j' : DnsJournal}, countSoas j ts = .ok j' → j'.file = j.file
  | [], j, j', h => by
    cases h
    rfl
  | t :: ts, j, j', h => by
    rw [countSoas] at h
    split at h
    · split at h
      · obtain ⟨serial, -, h⟩ := bind_eq_ok h
        have ih := countSoas_file h
        split at ih
        · exact ih
        · exact ih
      · have ih := countSoas_file h
        exact ih
    · exact countSoas_file h

variable {diff : Tuples} {q : Qsort}

theorem writeTransaction_length_le (h : Journal.writeTransaction q j diff = .ok j') : j.file.length ≤ j'.file.length := by
  obtain ⟨j1, hbegin, h⟩ := bind_eq_ok h
  obtain ⟨j2, hdiff, hcommit⟩ := bind_eq_ok h
  have h₁ : j.file.length ≤ j1.file.length := by
    obtain ⟨-, -, h⟩ := bind_eq_ok hbegin
    cases h
    exact FileImage.length_le_writeAt _ _ _ _
  have h2 : j1.file.length ≤ j2.file.length := by
    obtain ⟨-, -, h⟩ := bind_eq_ok hdiff
    obtain ⟨j3, hsoas, h⟩ := bind_eq_ok h
    obtain ⟨-, -, h⟩ := bind_eq_ok h
    obtain ⟨-, -, h⟩ := bind_eq_ok h
    cases h
    rw [← countSoas_file hsoas]
    exact FileImage.length_le_writeAt _ _ _ _
  have h3 : j2.file.length ≤ j'.file.length := by
    unfold commit at hcommit
    split at hcommit
    · cases hcommit
      exact FileImage.length_le_writeAt _ _ _ _
    · split at hcommit
      · cases hcommit
      · split at hcommit
        · cases hcommit
        · split at hcommit
          · cases hcommit
          · exact commitFiles_length_le hcommit
    · cases hcommit
  exact h₁.trans (h2.trans h3)

theorem commit_ok (hs : j.state = .transaction) (h : commit j = .ok j') : j.nSoa = 2 ∧ ge j.pos₁.serial j.pos₀.serial = true ∧
      (j.header.empty = false → j.pos₀.serial = j.header.end_.serial) ∧ Journal.commitFiles j = .ok j' := by
  unfold commit at h
  rw [hs] at h
  simp only at h
  split at h
  next => cases h
  next hn =>
    split at h
    next => cases h
    next hge =>
      split at h
      next => cases h
      next hserial =>
        refine ⟨not_not.1 hn, ?_, fun he => ?_, h⟩
        · rw [not_not, Bool.or_eq_true, beq_iff_eq] at hge
          exact ge_iff.2 hge
        · by_contra hne
          exact hserial ⟨he, hne⟩

theorem Inv.writeTransaction (h : Inv j log) (hs : j.state = .write) (hx : x = ⟨q.sort ixfrOrder diff⟩)
    (hall : ∀ t ∈ diff, Encodable t) (hok : writeTransaction q j diff = .ok j') (hlt : j'.file.length < 2 ^ 32) :
    Inv j' (log ++ [x]) ∧ Committed j log x j' ∧ (soaSerials x.tuples).length = 2 := by
  have htuples : x.tuples = q.sort ixfrOrder diff := by rw [hx]
  have hencodable : ∀ t ∈ x.tuples, Encodable t := by
    intro t ht
    rw [htuples] at ht
    exact hall t ((q.perm ixfrOrder diff).mem_iff.1 ht)
  rw [Journal.writeTransaction, h.beginTransaction hs] at hok
  simp only [ok_then, ← htuples] at hok
  obtain ⟨j1, hdiff', -⟩ := bind_eq_ok hok
  obtain ⟨j2, hdiff, hn, hstate, -, hwritten⟩ := writediff_begun j hencodable (writediff_lt hdiff')
  rw [hdiff] at hok
  obtain ⟨htwo, hge, hserial, hfiles⟩ := commit_ok hstate hok
  have hsoas : (soaSerials x.tuples).length = 2 := hn.symm.trans htwo
  rw [hwritten hsoas] at hge hserial hfiles
  have h0 : log ≠ [] → x.serial0 = j.header.end_.serial := by
    intro hl
    exact hserial (Bool.eq_false_iff.2 (fun he => hl (h.core.empty_iff.1 he)))
  obtain ⟨j1, hpurge, -⟩ := bind_eq_ok hfiles
  obtain ⟨j3, hfiles', hcommitted⟩ := h.commitFiles hge h0 (lt_of_le_of_lt (commitFiles_length_le hfiles) hlt)
    (h.purge_moves h0 hpurge)
  obtain rfl : j3 = j' := Except.ok.inj (hfiles'.symm.trans hfiles)
  exact ⟨⟨hcommitted.core, hcommitted.file_eq, hlt⟩, hcommitted, hsoas⟩

theorem Inv.writeTransaction_ok
    (h : Inv j log) (hs : j.state = .write) (hx : x = ⟨q.sort ixfrOrder diff⟩) (hall : ∀ t ∈ x.tuples, Encodable t)
    (hsoas : (soaSerials x.tuples).length = 2) (hge : ge x.serial1 x.serial0 = true) (h0 : log ≠ [] → x.serial0 = j.header.end_.serial)
    (hmoves : log ≠ [] → 0 < x.step + dist (recent 0 log)) (hlen : j.file.length + x.bytes.length < 2 ^ 32) :
    ∃ j', Journal.writeTransaction q j diff = .ok j' ∧ j'.file.length = j.file.length + x.bytes.length := by
  obtain ⟨j2, hdiff, -, -, -, hwritten⟩ := writediff_begun j hall (by rw [Txn.bytes_length] at hlen; omega)
  have hfile : (j.written x).file.length < 2 ^ 32 := by
    rw [DnsJournal.written, length_append, length_append, length_replicate, ← Txn.bytes_length]
    exact hlen
  obtain ⟨j', hfiles, hcommitted⟩ := h.commitFiles hge h0 hfile hmoves
  have hserials : (gt x.serial1 x.serial0 || x.serial1 == x.serial0) = true := by
    rw [Bool.or_eq_true, beq_iff_eq]
    exact ge_iff.1 hge
  refine ⟨j', ?_, ?_⟩
  · rw [Journal.writeTransaction, h.beginTransaction hs]
    rw [hx] at hdiff
    simp only [ok_then, hdiff]
    rw [hwritten hsoas, commit]
    simp only [DnsJournal.written, ne_eq, not_true_eq_false, if_false, hserials]
    have hcontinues : ¬(j.header.empty = false ∧ ¬x.serial0 = j.header.end_.serial) := by
      rintro ⟨he, hne⟩
      refine hne (h0 (fun hl => ?_))
      rw [h.core.empty_iff.2 hl] at he
      cases he
    exact (if_neg hcontinues).trans hfiles
  · rw [hcommitted.file_eq, h.length, length_append, head_length, hcommitted.length, logBytes_append, length_append,
      logBytes_cons]
    simp only [logBytes, flatMap_nil, append_nil]
    omega

/-! ### No assertion fails -/

/-- The function comes back, with success or another result: no assertion fails, and nothing is read behind its end. -/
def Returns {α : Type} (x : Exec α) : Prop := ∀ s, x = .error s → ∃ r, s = .result r

variable {α : Type}

@[simp] theorem returns_ok (a : α) : Returns (.ok a : Exec α) := fun _ h => by cases h

@[simp] theorem returns_stop (r : Result) : Returns (stop r : Exec α) := by
  intro s h
  cases h
  exact ⟨r, rfl⟩

/-- A sequence of steps comes back if each of them does. -/
theorem Returns.bind {α β : Type} {x : Exec α} {f : α → Exec β} (hx : Returns x)
    (hf : ∀ a, x = .ok a → Returns (f a)) : Returns (x >>= f) := by
  cases x with
  | error e =>
    intro s h
    exact hx s (congrArg Except.error (Except.error.inj h))
  | ok a => exact hf a rfl

theorem returns_bind_iff {α β : Type} {x : Exec α} {f : α → Exec β} (hf : ∀ a, Returns (f a)) :
    Returns (x >>= f) ↔ Returns x :=
  ⟨fun h s hs => h s (by rw [hs]; rfl), fun h => h.bind (fun a _ => hf a)⟩

theorem Returns.ne_assertion {x : Exec α} (h : Returns x) : x ≠ .error .assertion := by
  intro hx
  obtain ⟨r, hr⟩ := h .assertion hx
  cases hr

theorem read_returns (j : DnsJournal) (n : ℕ) : Returns (j.read n) := by
  unfold DnsJournal.read
  split
  · exact returns_ok _
  · exact returns_stop _

theorem readXhdr_returns (j : DnsJournal) : Returns j.readXhdr :=
  (read_returns j _).bind (fun _ _ => returns_ok _)

theorem journalNext_returns (j : DnsJournal) (p : Pos) : Returns (journalNext j p) := by
  unfold journalNext
  simp only
  split
  · exact returns_stop _
  refine (readXhdr_returns _).bind (fun a _ => ?_)
  split
  · exact returns_stop _
  split
  · exact returns_stop _
  · exact returns_ok _

theorem purgeLoop_returns (serial : UInt32) (j : DnsJournal) : Returns (purgeLoop j serial) := by
  induction j using purgeLoop.induct serial with
  | case1 j hgt =>
    rw [purgeLoop_done hgt]
    exact returns_ok j
  | case2 j hgt e he =>
    have hnext := journalNext_returns j j.header.begin_
    rw [purgeLoop, if_neg hgt]
    split
    next e' he' =>
      rw [he'] at hnext
      intro s hs
      exact hnext s (congrArg Except.error (Except.error.inj hs))
    next j' p he' =>
      rw [he] at he'
      cases he'
  | case3 j hgt j' p he ih =>
    rw [purgeLoop_next (Bool.eq_false_iff.2 hgt) he]
    exact ih

theorem purge_returns (j : DnsJournal) : Returns (purge j) := by
  unfold purge
  split
  · exact returns_ok j
  · exact (purgeLoop_returns _ _).bind (fun _ _ => returns_ok _)

theorem indexAdd_returns (pos : Pos) : Returns (indexAdd index pos) ↔ ∀ p, index = [p] → p.valid = false := by
  cases index with
  | nil => exact iff_of_true (returns_ok []) (fun p hp => (by cases hp))
  | cons p ps =>
    cases ps with
    | nil =>
      cases hv : p.valid with
      | false =>
        have hroom : makeRoom [p] = [p] := by
          rw [makeRoom, if_neg]
          rw [all_cons, hv, Bool.false_and]
          exact Bool.false_ne_true
        rw [indexAdd, if_neg (cons_ne_nil p [])]
        simp only [hroom, findIdx_cons, hv]
        refine iff_of_true (returns_ok _) (fun p' hp => ?_)
        cases hp
        exact hv
      | true =>
        have hroom : makeRoom [p] = [p] := by
          rw [makeRoom, all_cons, hv]
          rfl
        rw [indexAdd, if_neg (cons_ne_nil p [])]
        simp only [hroom, findIdx_cons, hv]
        refine iff_of_false (fun h => ?_) (fun h => Bool.noConfusion (hv.symm.trans (h p rfl)))
        obtain ⟨r, hr⟩ := h .assertion rfl
        cases hr
    | cons q qs =>
      obtain ⟨index', hadd, -⟩ := indexAdd_spec pos (show 2 ≤ (p :: q :: qs).length by simp)
      rw [hadd]
      exact iff_of_true (returns_ok index') (fun p' hp => (by cases hp))

/-- `dns_journal_commit` comes back unless it takes the transaction and the index has no room after the purge. -/
theorem commit_returns (hs : j.state = .transaction) : Returns (commit j) ↔
    (j.nSoa = 2 → ge j.pos₁.serial j.pos₀.serial = true → (j.header.empty = false → j.pos₀.serial = j.header.end_.serial) →
      ∀ j', Journal.purge j = .ok j' → ∀ p, j'.index = [p] → p.valid = false) := by
  unfold commit
  rw [hs]
  simp only
  split
  next hn => exact iff_of_true (returns_stop _) (fun htwo => absurd htwo hn)
  next hn =>
    rw [forall_prop_of_true (not_not.1 hn)]
    split
    next hge =>
      refine iff_of_true (returns_stop _) (fun h => absurd ?_ hge)
      rw [Bool.or_eq_true, beq_iff_eq]
      exact ge_iff.1 h
    next hge =>
      rw [not_not, Bool.or_eq_true, beq_iff_eq] at hge
      rw [forall_prop_of_true (ge_iff.2 hge)]
      split
      next hserial => exact iff_of_true (returns_stop _) (fun h => absurd (h hserial.1) hserial.2)
      next hserial =>
        rw [forall_prop_of_true (fun he => not_not.1 (fun hne => hserial ⟨he, hne⟩)), Journal.commitFiles]
        have hpurge := purge_returns j
        cases hp : Journal.purge j with
        | error e =>
          rw [hp] at hpurge
          exact iff_of_true hpurge (fun j' hj' => (by cases hj'))
        | ok j1 =>
          rw [ok_then]
          simp only
          refine ((returns_bind_iff (fun _ => returns_ok _)).trans (@indexAdd_returns j1.index j1.pos₀)).trans ?_
          constructor
          · rintro h j' ⟨⟩
            exact h
          · exact fun h => h j1 rfl

theorem Inv.ne_assertion (q : Qsort) (h : Inv j log)
    (hs : j.state = .write) (hall : ∀ t ∈ diff, Encodable t) (hlt : (diff.flatMap rrBytes).length < 2 ^ 32) :
    Journal.writeTransaction q j diff ≠ .error .assertion := by
  have hencodable : ∀ t ∈ (⟨q.sort ixfrOrder diff⟩ : Txn).tuples, Encodable t := fun t ht =>
    hall t ((q.perm ixfrOrder diff).mem_iff.1 ht)
  have hlen : (⟨q.sort ixfrOrder diff⟩ : Txn).data.length < 2 ^ 32 :=
    ((q.perm ixfrOrder diff).flatMap_right rrBytes).length_eq.trans_lt hlt
  obtain ⟨j2, hdiff, -, hstate, hindex, -⟩ := writediff_begun j hencodable hlen
  rw [Journal.writeTransaction, h.beginTransaction hs]
  simp only [ok_then, hdiff]
  refine ((commit_returns hstate).2 (fun _ _ _ j3 hj3 p hp => ?_)).ne_assertion
  have hlen : j3.index.length = j2.index.length := by
    rw [(Journal.purge_ok hj3).2]
    split
    · rfl
    · exact length_map _
  have htwo := h.core.two
  rw [hp, hindex] at hlen
  rw [← hlen] at htwo
  exact absurd htwo (by simp)

end Bind9.Journal
