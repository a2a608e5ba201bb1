import Bind9.JournalFormat

/-! # The journal as a log of transactions

A journal stands for the list of its committed transactions.  The serial of a place in the log is written as a distance
from the last serial, the sum of the steps of the transactions behind it; the transactions that can be addressed are the
longest suffix whose distance is below half the serial space (`recent`).  A transaction may leave the serial as it is, so
that several places of the log can have one serial. -/

namespace Bind9.Journal

open List hiding beq_eq_decide

open Diff Serial

/-! ### Transactions -/

/-- A transaction: its tuples in the order of the file. -/
structure Txn where
  tuples : Tuples

def soaSerial (t : DiffTuple) : UInt32 := decodeUint32 (t.rdata.drop (t.rdata.length - 20))

/-- The serials of the SOA records among the tuples. -/
def soaSerials (ts : Tuples) : List UInt32 := (ts.filter (fun t => t.type = soa)).map soaSerial

namespace Txn

variable (x : Txn)

/-- The serial that the transaction starts from. -/
def serial0 : UInt32 := (soaSerials x.tuples).getD 0 0

/-- The serial that the transaction leads to. -/
def serial1 : UInt32 := (soaSerials x.tuples).getD 1 0

/-- The records of the transaction in the file. -/
def data : Bytes := x.tuples.flatMap rrBytes

def xhdr : Xhdr := ⟨x.data.length, x.serial0, x.serial1⟩

/-- The transaction in the file. -/
def bytes : Bytes := x.xhdr.encode ++ x.data

/-- How far the transaction moves the serial. -/
def step : ℕ := (x.serial1 - x.serial0).toNat

theorem step_lt {x : Txn} (h : ge x.serial1 x.serial0 = true) : x.step < 2 ^ 31 := of_decide_eq_true h

theorem step_pos {x : Txn} (h : gt x.serial1 x.serial0 = true) : 0 < x.step := (of_decide_eq_true h).1

theorem bytes_length : x.bytes.length = rawxhdrSize + x.data.length := by
  rw [bytes, length_append, Xhdr.encode_length]

end Txn

/-- The transactions in the file. -/
def logBytes (log : List Txn) : Bytes := log.flatMap Txn.bytes

theorem logBytes_cons (x : Txn) (log : List Txn) : logBytes (x :: log) = x.bytes ++ logBytes log := rfl

theorem logBytes_append (a b : List Txn) : logBytes (a ++ b) = logBytes a ++ logBytes b := flatMap_append

/-- How far the transactions move the serial. -/
def dist (log : List Txn) : ℕ := (log.map Txn.step).sum

@[simp] theorem dist_nil : dist [] = 0 := rfl

theorem dist_cons (x : Txn) (log : List Txn) : dist (x :: log) = x.step + dist log := by simp [dist]

theorem dist_append (a b : List Txn) : dist (a ++ b) = dist a + dist b := by simp [dist]

theorem dist_le_of_suffix {a b : List Txn} (h : a <:+ b) : dist a ≤ dist b := by
  obtain ⟨c, rfl⟩ := h
  rw [dist_append]
  omega

/-! ### The transactions that can be addressed -/

/-- The longest suffix that is less than half the serial space away, `k` steps ahead of its end. -/
def recent (k : ℕ) : List Txn → List Txn
  | [] => []
  | x :: xs => if k + dist (x :: xs) < 2 ^ 31 then x :: xs else recent k xs

theorem recent_suffix (k : ℕ) : ∀ log : List Txn, recent k log <:+ log
  | [] => suffix_refl []
  | x :: xs => by
    rw [recent]
    split
    · exact suffix_refl _
    · exact (recent_suffix k xs).trans (suffix_cons x xs)
theorem suffix_recent_iff {k : ℕ} (hk : k < 2 ^ 31) : ∀ {log a : List Txn}, a <:+ log →
    (a <:+ recent k log ↔ k + dist a < 2 ^ 31)
  | [], a, h => by
    rw [suffix_nil.1 h, recent]
    simp only [suffix_refl, dist_nil, true_iff]
    omega
  | x :: xs, a, h => by
    rw [recent]
    split
    next hlt =>
      have hle := dist_le_of_suffix h
      exact ⟨fun _ => by omega, fun _ => h⟩
    next hge =>
      obtain rfl | h := suffix_cons_iff.1 h
      · refine ⟨fun hs => ?_, fun hlt => absurd hlt hge⟩
        have hlen := (hs.trans (recent_suffix k xs)).length_le
        rw [length_cons] at hlen
        omega
      · exact suffix_recent_iff hk h

/-- The end of the log moves `k` steps ahead. -/
theorem recent_recent (k : ℕ) : ∀ log : List Txn, recent k (recent 0 log) = recent k log
  | [] => rfl
  | x :: xs => by
    have ih := recent_recent k xs
    rw [recent]
    split
    next => rfl
    next hge =>
      rw [ih, recent, if_neg (by omega)]

theorem recent_snoc (x : Txn) (hx : x.step < 2 ^ 31) : ∀ log : List Txn, recent 0 (log ++ [x]) = recent x.step log ++ [x]
  | [] => by
    have hd : 0 + dist [x] < 2 ^ 31 := by
      rw [dist_cons, dist_nil]
      omega
    exact if_pos hd
  | y :: ys => by
    have ih := recent_snoc x hx ys
    have hd : 0 + dist (y :: ys ++ [x]) = x.step + dist (y :: ys) := by
      rw [dist_append, dist_cons x, dist_nil]
      omega
    rw [cons_append, recent, recent, ← cons_append, hd]
    split
    · rfl
    · exact ih

theorem recent_dist {k : ℕ} (hk : k < 2 ^ 31) (log : List Txn) : k + dist (recent k log) < 2 ^ 31 :=
  (suffix_recent_iff hk (recent_suffix k log)).1 (suffix_refl _)

/-- The longest suffix that is at most `d` away. -/
def within (d : ℕ) : List Txn → List Txn
  | [] => []
  | x :: xs => if dist (x :: xs) ≤ d then x :: xs else within d xs

theorem within_suffix (d : ℕ) : ∀ log : List Txn, within d log <:+ log
  | [] => suffix_refl []
  | x :: xs => by
    rw [within]
    split
    · exact suffix_refl _
    · exact (within_suffix d xs).trans (suffix_cons x xs)
theorem suffix_within {d : ℕ} : ∀ {log a : List Txn}, a <:+ log → dist a ≤ d → a <:+ within d log
  | [], _, h, _ => h
  | x :: xs, a, h, hd => by
    rw [within]
    split
    next => exact h
    next hgt =>
      obtain rfl | h := suffix_cons_iff.1 h
      · exact absurd hd hgt
      · exact suffix_within h hd

theorem within_dist_le (d : ℕ) : ∀ log : List Txn, dist (within d log) ≤ d
  | [] => Nat.zero_le d
  | x :: xs => by
    rw [within]
    split
    next h => exact h
    next => exact within_dist_le d xs
theorem within_of_suffix {d : ℕ} {log c : List Txn} (h : c <:+ log) (hd : d < dist c) : within d c = within d log := by
  have h1 : within d c <:+ within d log := suffix_within ((within_suffix d c).trans h) (within_dist_le d c)
  have h2 : within d log <:+ c := by
    obtain hlen | hlen := Nat.le_total (within d log).length c.length
    · exact suffix_of_suffix_length_le (within_suffix d log) h hlen
    have hle := dist_le_of_suffix (suffix_of_suffix_length_le h (within_suffix d log) hlen)
    have hmax := within_dist_le d log
    omega
  exact h1.eq_of_length_le (suffix_within h2 (within_dist_le d log)).length_le

/-! ### Linked transactions -/

/-- Each transaction starts from the serial that the one before it leads to, and the last one leads to `e`. -/
def Linked (e : UInt32) : List Txn → Prop
  | [] => True
  | x :: xs => x.serial1 = back e (dist xs) ∧ ge x.serial1 x.serial0 = true ∧ x.data.length < 2 ^ 32 ∧ Linked e xs

variable {e serial : UInt32}

namespace Linked

theorem suffix : ∀ {log a : List Txn}, Linked e log → a <:+ log → Linked e a
  | [], a, _, hs => by
    rw [suffix_nil.1 hs]
    trivial
  | x :: xs, a, h, hs => by
    obtain rfl | hs := suffix_cons_iff.1 hs
    · exact h
    · exact suffix h.2.2.2 hs

theorem start {e : UInt32} {x : Txn} {xs : List Txn} (h : Linked e (x :: xs)) : x.serial0 = back e (dist (x :: xs)) := by
  rw [eq_back x.serial1 x.serial0, h.1, back_back, dist_cons, Nat.add_comm]
  rw [← h.1]
  rfl

theorem data_lt : ∀ {log : List Txn}, Linked e log → ∀ {x : Txn}, x ∈ log → x.data.length < 2 ^ 32
  | y :: ys, h, x, hx => by
    obtain rfl | hx := mem_cons.1 hx
    · exact h.2.2.1
    · exact data_lt h.2.2.2 hx

theorem snoc {e : UInt32} {x : Txn} (h0 : x.serial0 = e) (hge : ge x.serial1 x.serial0 = true)
    (hlen : x.data.length < 2 ^ 32) : ∀ {log : List Txn}, Linked e log → Linked x.serial1 (log ++ [x])
  | [], _ => ⟨(back_zero _).symm, hge, hlen, trivial⟩
  | y :: ys, h => by
    have hlast : e = back x.serial1 x.step := by
      rw [← h0]
      exact eq_back _ _
    have hd : dist (ys ++ [x]) = x.step + dist ys := by
      rw [dist_append, dist_cons, dist_nil]
      omega
    refine ⟨?_, h.2.1, h.2.2.1, snoc h0 hge hlen h.2.2.2⟩
    rw [h.1, back_of_last hlast]
    exact congrArg (back x.serial1) hd.symm

end Linked

/-- Every transaction moves the serial. -/
def Rising (log : List Txn) : Prop := ∀ x ∈ log, gt x.serial1 x.serial0 = true

namespace Rising

variable {log : List Txn}

theorem suffix (h : Rising log) {a : List Txn} (ha : a <:+ log) : Rising a := fun x hx => h x (ha.subset hx)

theorem dist_pos (h : Rising log) (hne : log ≠ []) : 0 < dist log := by
  cases log with
  | nil => exact absurd rfl hne
  | cons x xs =>
    have hs := Txn.step_pos (h x mem_cons_self)
    rw [dist_cons]
    omega

theorem eq_of_dist_eq (h : Rising log) {a b : List Txn} (ha : a <:+ log) (hb : b <:+ log) (hd : dist a = dist b) : a = b := by
  have hlonger : ∀ {a b : List Txn}, a <:+ log → b <:+ a → dist a = dist b → b = a := by
    intro a b ha hba hd
    obtain ⟨c, rfl⟩ := hba
    cases c with
    | nil => rfl
    | cons x c =>
      have hpos := (Txn.step_pos (h.suffix ha x (mem_append_left _ mem_cons_self)))
      rw [cons_append, dist_cons, dist_append] at hd
      omega
  obtain hlen | hlen := Nat.le_total a.length b.length
  · exact hlonger hb (suffix_of_suffix_length_le ha hb hlen) hd.symm
  · exact (hlonger ha (suffix_of_suffix_length_le hb ha hlen) hd).symm

end Rising

/-! ### Places in the file -/

/-- The log `log` stands behind `head` in the file of `j`, and leads to the last serial of its header. -/
structure Holds (j : DnsJournal) (head : Bytes) (log : List Txn) (rest : Bytes) : Prop where
  file_eq : j.file = head ++ (logBytes log ++ rest)
  length_lt : j.file.length < 2 ^ 32
  linked : Linked j.header.end_.serial log

/-- `p` is the place of the suffix `a` of the log. -/
def Placed (start : ℕ) (e : UInt32) (log : List Txn) (p : Pos) (a : List Txn) : Prop :=
  p.serial = back e (dist a) ∧ ∃ pre, log = pre ++ a ∧ p.offset = start + (logBytes pre).length

variable {start : ℕ}

theorem Placed.suffix {log a : List Txn} {p : Pos} (h : Placed start e log p a) : a <:+ log := by
  obtain ⟨_, pre, rfl, _⟩ := h
  exact suffix_append pre a

theorem Placed.unique {log a : List Txn} {p q : Pos} (hp : Placed start e log p a) (hq : Placed start e log q a) : p = q := by
  cases p with
  | mk s o =>
    cases q with
    | mk s' o' =>
      obtain ⟨hs, pre, hpre, ho⟩ := hp
      obtain ⟨hs', pre', hpre', ho'⟩ := hq
      obtain rfl : pre = pre' := append_cancel_right (hpre.symm.trans hpre')
      simp only at hs hs' ho ho'
      rw [hs, hs', ho, ho']

section holds

variable {j : DnsJournal} {head rest : Bytes} {log : List Txn}

theorem Holds.moved (h : Holds j head log rest) (o : ℕ) : Holds (j.moved o) head log rest :=
  ⟨h.file_eq, h.length_lt, h.linked⟩

variable {p : Pos}

theorem Holds.journalNext (h : Holds j head log rest) {x : Txn} {a : List Txn}
    (hp : Placed head.length j.header.end_.serial log p (x :: a)) (hpos : 0 < dist (x :: a)) (hd : dist (x :: a) < 2 ^ 31) :
    ∃ o p', Journal.journalNext j p = .ok (j.moved o, p') ∧ Placed head.length j.header.end_.serial log p' a := by
  have hl := h.linked.suffix hp.suffix
  obtain ⟨hserial, pre, hlog, hoffset⟩ := hp
  have hne : p.serial ≠ j.header.end_.serial := by
    intro he
    rw [hserial, ← back_zero j.header.end_.serial, back_back, Nat.zero_add,
      back_inj j.header.end_.serial hd (by omega)] at he
    omega
  have hfile : j.file = (head ++ logBytes pre) ++ (x.xhdr.encode ++ (x.data ++ (logBytes a ++ rest))) := by
    rw [h.file_eq, hlog, logBytes_append, logBytes_cons, Txn.bytes]
    simp only [append_assoc]
  have hlt : p.offset < 2 ^ 32 := by
    have hlen := congrArg List.length hfile
    have hmax := h.length_lt
    simp only [length_append] at hlen
    omega
  have hread := DnsJournal.readXhdr_append (j := j.seek p.offset) hfile
    (by rw [length_append, ← hoffset]; exact Nat.mod_eq_of_lt hlt) hl.2.2.1
  have hwrap : ¬2 ^ 63 ≤ p.offset + (rawxhdrSize + x.xhdr.size) := by
    have hsize : x.xhdr.size < 2 ^ 32 := hl.2.2.1
    rw [rawxhdrSize]
    omega
  refine ⟨p.offset % 2 ^ 32 + rawxhdrSize, ⟨x.serial1, p.offset + (rawxhdrSize + x.data.length)⟩, ?_, hl.1, pre ++ [x], ?_, ?_⟩
  · rw [Journal.journalNext]
    rw [if_neg (show ¬p.serial = (j.seek p.offset).header.end_.serial from hne), hread]
    simp only [ok_then]
    rw [if_neg (by rw [hserial, ← hl.start]; exact fun hn => hn rfl), if_neg hwrap]
    rfl
  · rw [append_assoc, hlog]
    rfl
  · rw [logBytes_append, length_append, logBytes_cons, length_append, Txn.bytes_length]
    simp only [logBytes, flatMap_nil, length_nil, hoffset]
    omega

/-- There is no transaction behind the last serial. -/
theorem journalNext_end (h : p.serial = j.header.end_.serial) : Journal.journalNext j p = stop .nomore := by
  rw [Journal.journalNext]
  rw [if_pos (show p.serial = (j.seek p.offset).header.end_.serial from h)]

theorem findLoop_end (h : p.serial = j.header.end_.serial) (hne : p.serial ≠ serial)
    (hgt : gt p.serial serial = false) : findLoop j serial p = stop .nomore := by
  rw [findLoop, if_neg hne, hgt, if_neg Bool.false_ne_true]
  split
  next e he =>
    rw [journalNext_end h] at he
    cases he
    rfl
  next j1 p1 he =>
    rw [journalNext_end h] at he
    cases he

theorem findLoop_found (h : p.serial = serial) : findLoop j serial p = .ok (j, p) := by
  rw [findLoop, if_pos h]

theorem findLoop_passed (hne : p.serial ≠ serial) (hgt : gt p.serial serial = true) :
    findLoop j serial p = stop .notfound := by
  rw [findLoop, if_neg hne, if_pos hgt]

theorem findLoop_next {j' : DnsJournal} {p p' : Pos} (hne : p.serial ≠ serial)
    (hgt : gt p.serial serial = false) (h : Journal.journalNext j p = .ok (j', p')) :
    findLoop j serial p = findLoop j' serial p' := by
  rw [findLoop, if_neg hne, hgt, if_neg Bool.false_ne_true]
  split
  next e he =>
    rw [h] at he
    cases he
  next j1 p1 he =>
    rw [h] at he
    cases he
    rfl

theorem Holds.findLoop {d : ℕ} (h0 : 0 < d) : ∀ {c : List Txn} {j : DnsJournal} {p : Pos}, Holds j head log rest →
    Placed head.length j.header.end_.serial log p c → d ≤ dist c → dist c < 2 ^ 31 →
    (dist (within d c) = d → ∃ o p', Journal.findLoop j (back j.header.end_.serial d) p = .ok (j.moved o, p') ∧
      Placed head.length j.header.end_.serial log p' (within d c)) ∧
    (dist (within d c) ≠ d → Journal.findLoop j (back j.header.end_.serial d) p = stop .notfound)
  | [], _, _, _, _, hle, _ => absurd (show d ≤ 0 from hle) (by omega)
  | x :: c, j, p, h, hp, hle, hmax => by
    have hserial : p.serial = back j.header.end_.serial (dist (x :: c)) := hp.1
    rw [within]
    obtain heq | hlt := hle.eq_or_lt
    · rw [if_pos heq.ge]
      refine ⟨fun _ => ⟨j.offset, p, findLoop_found (by rw [hserial, heq]), hp⟩, fun hne => absurd heq.symm hne⟩
    rw [if_neg (by omega)]
    have hne : p.serial ≠ back j.header.end_.serial d := by
      rw [hserial, ne_eq, back_inj _ hmax (by omega)]
      omega
    have hgt : gt p.serial (back j.header.end_.serial d) = false := by
      rw [hserial, gt_back _ hmax (by omega), decide_eq_false_iff_not]
      omega
    obtain ⟨o, p', hnext, hp'⟩ := h.journalNext hp (by omega) hmax
    have hmax' : dist c < 2 ^ 31 := lt_of_le_of_lt (dist_le_of_suffix (suffix_cons x c)) hmax
    rw [findLoop_next hne hgt hnext]
    obtain hlt' | hle' := Nat.lt_or_ge (dist c) d
    · -- the serial is between two transactions
      have hwithin : within d c = c :=
        (within_suffix d c).eq_of_length_le (suffix_within (suffix_refl c) hlt'.le).length_le
      refine ⟨fun hd => absurd hd (by rw [hwithin]; omega), fun _ => findLoop_passed ?_ ?_⟩
      · rw [hp'.1, ne_eq, back_inj _ hmax' (by omega)]
        omega
      · rw [hp'.1, gt_back _ hmax' (by omega), decide_eq_true_eq]
        exact hlt'
    · exact Holds.findLoop h0 (h.moved o) hp' hle' hmax'

end holds

/-! ### The index -/

/-- Every entry in use is the place of a transaction in `cur`. -/
def IndexOk (start : ℕ) (e : UInt32) (log cur : List Txn) (index : List Pos) : Prop :=
  ∀ p ∈ index, p.valid = true → ∃ a, a ≠ [] ∧ a <:+ cur ∧ Placed start e log p a

def firstEntry (index : List Pos) (serial : UInt32) : Option Pos :=
  index.find? (fun p => p.valid && p.serial == serial)

/-- No entry is better than a place with the serial itself. -/
theorem indexFind_self {best : Pos} (h : best.serial = serial) :
    ∀ index : List Pos, indexFind index serial best = best
  | [] => rfl
  | p :: ps => by
    have ih := indexFind_self h ps
    rw [indexFind] at ih
    rw [indexFind, foldl_cons, if_neg ?_, ih]
    rw [h, Bool.not_eq_true, Bool.and_eq_false_iff]
    by_cases hge : ge serial p.serial = true
    · exact .inr (gt_eq_false_of_ge hge)
    · exact .inl (by rw [Bool.eq_false_iff.2 hge, Bool.and_false])

theorem indexFind_none {serial : UInt32} {best : Pos} : ∀ {index : List Pos},
    (∀ p ∈ index, p.valid = true → gt p.serial best.serial = false) → indexFind index serial best = best
  | [], _ => rfl
  | p :: ps, h => by
    have ih := @indexFind_none serial best ps (fun q hq => h q (mem_cons_of_mem p hq))
    rw [indexFind] at ih
    rw [indexFind, foldl_cons, if_neg ?_, ih]
    rintro hcond
    rw [Bool.and_eq_true, Bool.and_eq_true] at hcond
    rw [h p mem_cons_self hcond.1.1] at hcond
    cases hcond.2

theorem indexFind_placed {log cur : List Txn} {d : ℕ} (hcur : dist cur < 2 ^ 31) :
    ∀ {index : List Pos} {best : Pos} {b : List Txn}, IndexOk start e log cur index → b <:+ cur → d < dist b →
    Placed start e log best b →
    (∀ p, firstEntry index (back e d) = some p → indexFind index (back e d) best = p) ∧
    (firstEntry index (back e d) = none →
      ∃ c, c <:+ cur ∧ d < dist c ∧ Placed start e log (indexFind index (back e d) best) c)
  | [], _, b, _, hb, hd, hp => ⟨fun p hs => (by cases hs), fun _ => ⟨b, hb, hd, hp⟩⟩
  | p :: ps, best, b, hi, hb, hd, hp => by
    have hi' : IndexOk start e log cur ps := fun x hx => hi x (mem_cons_of_mem p hx)
    have hdb := dist_le_of_suffix hb
    rw [indexFind, foldl_cons, firstEntry, find?_cons]
    by_cases hv : p.valid = true
    · obtain ⟨c, -, hc, hpc⟩ := hi p mem_cons_self hv
      have hdc := dist_le_of_suffix hc
      have hge : ge (back e d) p.serial = decide (d ≤ dist c) := by
        rw [hpc.1, ge_back e (by omega) (by omega)]
      have hgt : gt p.serial best.serial = decide (dist c < dist b) := by
        rw [hpc.1, hp.1, gt_back e (by omega) (by omega)]
      have hserial : (p.serial == back e d) = decide (dist c = d) := by
        rw [hpc.1, beq_eq_decide, decide_eq_decide, back_inj e (by omega) (by omega)]
      simp only [hv, Bool.true_and, hge, hgt, hserial]
      by_cases heq : dist c = d
      · rw [decide_eq_true heq, decide_eq_true (show d ≤ dist c by omega), decide_eq_true (show dist c < dist b by omega)]
        refine ⟨fun q hq => ?_, fun hn => (by cases hn)⟩
        cases hq
        exact indexFind_self (show p.serial = back e d by rw [hpc.1, heq]) ps
      rw [decide_eq_false heq]
      by_cases hbetter : (decide (d ≤ dist c) && decide (dist c < dist b)) = true
      · rw [if_pos hbetter]
        rw [Bool.and_eq_true, decide_eq_true_eq] at hbetter
        exact indexFind_placed hcur hi' hc (by omega) hpc
      · rw [if_neg hbetter]
        exact indexFind_placed hcur hi' hb hd hp
    rw [Bool.not_eq_true] at hv
    simp only [hv, Bool.false_and, Bool.false_eq_true, if_false]
    exact indexFind_placed hcur hi' hb hd hp

/-! ### Finding a serial -/

section find

variable {j : DnsJournal} {head rest : Bytes} {log cur : List Txn} {d : ℕ}

theorem journalFind_inside (hbegin : j.header.begin_.serial = back j.header.end_.serial (dist cur)) (h0 : 0 < d)
    (hd : d ≤ dist cur) (hcur : dist cur < 2 ^ 31) : Journal.journalFind j (back j.header.end_.serial d) =
      findLoop j (back j.header.end_.serial d) (indexFind j.index (back j.header.end_.serial d) j.header.begin_) := by
  have hrange0 : gt j.header.begin_.serial (back j.header.end_.serial d) = false := by
    rw [hbegin, gt_back _ hcur (by omega), decide_eq_false_iff_not]
    omega
  have hrange1 : gt (back j.header.end_.serial d) j.header.end_.serial = false := by
    have hg := gt_back j.header.end_.serial (a := d) (b := 0) (by omega) (by omega)
    rwa [back_zero, decide_eq_false (by omega)] at hg
  have hlast : back j.header.end_.serial d ≠ j.header.end_.serial := by
    intro he
    have hinj := (back_inj j.header.end_.serial (a := d) (b := 0) (by omega) (by omega)).1 (by rw [he, back_zero])
    omega
  rw [Journal.journalFind, hrange0, hrange1, if_neg Bool.false_ne_true, if_neg Bool.false_ne_true, if_neg hlast]

theorem journalFind_begin (hbegin : j.header.begin_.serial = back j.header.end_.serial (dist cur)) (h0 : 0 < dist cur)
    (hcur : dist cur < 2 ^ 31) : Journal.journalFind j (back j.header.end_.serial (dist cur)) = .ok (j, j.header.begin_) := by
  rw [journalFind_inside hbegin h0 le_rfl hcur, indexFind_self hbegin, findLoop_found hbegin]

theorem journalFind_entry (hcur : dist cur < 2 ^ 31) (hbegin : Placed head.length j.header.end_.serial log j.header.begin_ cur)
    (hindex : IndexOk head.length j.header.end_.serial log cur j.index) (h0 : 0 < d) (hd : d < dist cur) {p : Pos}
    (hp : firstEntry j.index (back j.header.end_.serial d) = some p) :
    Journal.journalFind j (back j.header.end_.serial d) = .ok (j, p) := by
  have hserial : p.serial = back j.header.end_.serial d := by
    have hs := find?_some hp
    rw [Bool.and_eq_true, beq_iff_eq] at hs
    exact hs.2
  rw [journalFind_inside hbegin.1 h0 hd.le hcur,
    (indexFind_placed hcur hindex (suffix_refl cur) hd hbegin).1 p hp, findLoop_found hserial]

theorem Holds.journalFind_scan (h : Holds j head log rest) (hcur : dist cur < 2 ^ 31)
    (hbegin : Placed head.length j.header.end_.serial log j.header.begin_ cur)
    (hindex : IndexOk head.length j.header.end_.serial log cur j.index) (h0 : 0 < d) (hd : d < dist cur)
    (hnone : firstEntry j.index (back j.header.end_.serial d) = none) :
    (dist (within d cur) = d → ∃ o p, Journal.journalFind j (back j.header.end_.serial d) = .ok (j.moved o, p) ∧
      Placed head.length j.header.end_.serial log p (within d cur)) ∧
    (dist (within d cur) ≠ d → Journal.journalFind j (back j.header.end_.serial d) = stop .notfound) := by
  obtain ⟨c, hc, hdc, hplaced⟩ := (indexFind_placed hcur hindex (suffix_refl cur) hd hbegin).2 hnone
  have hloop := h.findLoop h0 hplaced hdc.le (lt_of_le_of_lt (dist_le_of_suffix hc) hcur)
  rw [journalFind_inside hbegin.1 h0 hd.le hcur, ← within_of_suffix hc hdc]
  exact hloop

theorem Holds.journalFind (h : Holds j head log rest) (hrising : Rising cur) (hcur : dist cur < 2 ^ 31)
    (hbegin : Placed head.length j.header.end_.serial log j.header.begin_ cur)
    (hindex : IndexOk head.length j.header.end_.serial log cur j.index) {a : List Txn} (ha : a <:+ cur) (hne : a ≠ []) :
    ∃ o p, Journal.journalFind j (back j.header.end_.serial (dist a)) = .ok (j.moved o, p) ∧
      Placed head.length j.header.end_.serial log p a := by
  have hpos := (hrising.suffix ha).dist_pos hne
  obtain heq | hlt := (dist_le_of_suffix ha).eq_or_lt
  · obtain rfl := hrising.eq_of_dist_eq ha (suffix_refl cur) heq
    exact ⟨j.offset, j.header.begin_, journalFind_begin hbegin.1 hpos hcur, hbegin⟩
  cases hentry : firstEntry j.index (back j.header.end_.serial (dist a)) with
  | some p =>
    refine ⟨j.offset, p, journalFind_entry hcur hbegin hindex hpos hlt hentry, ?_⟩
    have hs := find?_some hentry
    rw [Bool.and_eq_true, beq_iff_eq] at hs
    obtain ⟨c, -, hc, hplaced⟩ := hindex p (mem_of_find?_eq_some hentry) hs.1
    have hdc := dist_le_of_suffix hc
    have hd : dist c = dist a := by
      rw [hplaced.1, back_inj _ (by omega) (by omega)] at hs
      exact hs.2
    rwa [← hrising.eq_of_dist_eq hc ha hd]
  | none =>
    have hwithin : within (dist a) cur = a :=
      (hrising.eq_of_dist_eq ha (within_suffix _ _) (le_antisymm (dist_le_of_suffix (suffix_within ha le_rfl))
        (within_dist_le _ _))).symm
    obtain ⟨o, p, hfind, hplaced⟩ := (h.journalFind_scan hcur hbegin hindex hpos hlt hentry).1 (by rw [hwithin])
    rw [hwithin] at hplaced
    exact ⟨o, p, hfind, hplaced⟩

end find

end Bind9.Journal
