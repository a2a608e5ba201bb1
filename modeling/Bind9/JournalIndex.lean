import Bind9.JournalIter

/-! # The index of the journal

`journal_find` with the index and without it.  The index holds places of transactions; where several transactions start
from one serial, because transactions between them left it as it was, the index may hold another of these places than the
first one, which is the place that the scan from the begin of the journal finds. -/

namespace Bind9.Journal

open List

open Diff Serial

/-! ### Runs -/

/-- A journal that was created and written by the transactions that `dns_journal_commit` took; between transactions it
may be closed and opened again. -/
inductive Reachable (q : Qsort) : DnsJournal → List Txn → Prop
  | fresh {j : DnsJournal} : journalOpen journalFileCreate true = .ok j → Reachable q j []
  | write {j j' : DnsJournal} {log : List Txn} {diff : Tuples} {x : Txn} : Reachable q j log →
      x = ⟨q.sort ixfrOrder diff⟩ → (∀ t ∈ diff, Encodable t) → writeTransaction q j diff = .ok j' →
      Reachable q j' (log ++ [x])
  | reopen {j j' : DnsJournal} {log : List Txn} {write : Bool} : Reachable q j log → journalOpen j.file write = .ok j' →
      Reachable q j' log

theorem writeTransaction_state {q : Qsort} {j j' : DnsJournal} {diff : Tuples}
    (h : writeTransaction q j diff = .ok j') : j.state = .write ∨ j.state = .inline := by
  obtain ⟨j1, hbegin, -⟩ := bind_eq_ok h
  obtain ⟨u, hs, -⟩ := bind_eq_ok hbegin
  simpa using require_ok hs

theorem journalOpen_ok {file : Bytes} {write : Bool} {j : DnsJournal} (h : journalOpen file write = .ok j) :
    j.file = file ∧ j.state = if write then .write else .read := by
  obtain ⟨⟨rawheader, j1⟩, hheader, h⟩ := bind_eq_ok h
  obtain ⟨-, rfl, -⟩ := read_ok hheader
  simp only at h
  split at h
  · cases h
  obtain ⟨⟨rawindex, j2⟩, hindex, h⟩ := bind_eq_ok h
  obtain ⟨-, rfl, -⟩ := read_ok hindex
  obtain ⟨-, -, h⟩ := bind_eq_ok h
  cases h
  exact ⟨rfl, rfl⟩

theorem Reachable.inv {q : Qsort} {j : DnsJournal} {log : List Txn} (h : Reachable q j log) (hlt : j.file.length < 2 ^ 32) :
    Inv j log ∧ (j.state = .write ∨ j.state = .read) := by
  induction h with
  | fresh hopen =>
    obtain ⟨hinv, hstate⟩ := inv_fresh hopen
    exact ⟨hinv, .inl hstate⟩
  | @write j j' log diff x _ hx hall hok ih =>
    obtain ⟨hinv, hstate⟩ := ih (lt_of_le_of_lt (writeTransaction_length_le hok) hlt)
    have hwrite : j.state = .write := by
      obtain h1 | h1 := hstate
      · exact h1
      obtain h2 | h2 := writeTransaction_state hok
      · exact h2
      · rw [h1] at h2
        cases h2
    obtain ⟨hinv', hcommitted, -⟩ := hinv.writeTransaction hwrite hx hall hok hlt
    exact ⟨hinv', .inl hcommitted.state⟩
  | @reopen j j' log write _ hopen ih =>
    rw [(journalOpen_ok hopen).1] at hlt
    obtain ⟨j1, hopen1, hinv, -, -, hstate⟩ := (ih hlt).1.reopen write
    obtain rfl : j1 = j' := Except.ok.inj (hopen1.symm.trans hopen)
    refine ⟨hinv, ?_⟩
    rw [hstate]
    cases write with
    | true => exact .inl rfl
    | false => exact .inr rfl

/-! ### What is stored for a serial -/

/-- `p` is where a transaction of the log that starts from the serial is stored. -/
def StoredAt (j : DnsJournal) (log : List Txn) (serial : UInt32) (p : Pos) : Prop :=
  ∃ (pre post : List Txn) (x : Txn), log = pre ++ x :: post ∧ x.serial0 = serial ∧ p.serial = serial ∧
    p.offset = logStart j.index.length + (logBytes pre).length ∧ x.bytes <+: j.file.drop p.offset

/-- `p` is where the first transaction behind the begin of the journal that starts from the serial is stored. -/
def FirstAt (j : DnsJournal) (log : List Txn) (serial : UInt32) (p : Pos) : Prop :=
  StoredAt j log serial p ∧ j.header.begin_.offset ≤ p.offset ∧
    ∀ q, StoredAt j log serial q → j.header.begin_.offset ≤ q.offset → p.offset ≤ q.offset

/-- What `journal_find` finds for the serial is the end of the journal or a transaction that starts from the serial, and
without the index it finds the same. -/
structure IsHint (j : DnsJournal) (log : List Txn) (serial : UInt32) : Prop where
  same : (journalFind j serial).map Prod.snd = (journalFind { j with index := [] } serial).map Prod.snd
  stored : ∀ j' p, journalFind j serial = .ok (j', p) →
    (serial = j.header.end_.serial ∧ p = j.header.end_) ∨ StoredAt j log serial p

/-- Between the begin and the end of the journal, the first entry of the index in use for the serial, if there is one, is
the place of the first transaction that starts from it. -/
def Unambiguous (j : DnsJournal) (log : List Txn) (serial : UInt32) : Prop :=
  serial ≠ j.header.begin_.serial → serial ≠ j.header.end_.serial →
    ∀ p, firstEntry j.index serial = some p → FirstAt j log serial p

theorem FirstAt.unique {j : DnsJournal} {log : List Txn} {serial : UInt32} {p q : Pos} (hp : FirstAt j log serial p)
    (hq : FirstAt j log serial q) : p = q := by
  have hoffset : p.offset = q.offset := le_antisymm (hp.2.2 q hq.1 hq.2.1) (hq.2.2 p hp.1 hp.2.1)
  obtain ⟨-, -, -, -, -, hps, -⟩ := hp.1
  obtain ⟨-, -, -, -, -, hqs, -⟩ := hq.1
  cases p with
  | mk s o =>
    cases q with
    | mk s' o' =>
      simp only at hoffset hps hqs
      rw [hoffset, hps, hqs]

theorem Placed.suffix_iff {start : ℕ} {e : UInt32} {log a b : List Txn} {p q : Pos} (hp : Placed start e log p a)
    (hq : Placed start e log q b) : a <:+ b ↔ q.offset ≤ p.offset := by
  obtain ⟨-, pre, hpre, hoff⟩ := hp
  obtain ⟨-, pre', hpre', hoff'⟩ := hq
  have hlen : (logBytes pre).length + (logBytes a).length = (logBytes pre').length + (logBytes b).length := by
    rw [← length_append, ← logBytes_append, ← hpre, ← length_append, ← logBytes_append, ← hpre']
  constructor
  · rintro ⟨c, rfl⟩
    rw [logBytes_append, length_append] at hlen
    omega
  · intro hle
    obtain hshort | hlong := Nat.le_total a.length b.length
    · exact suffix_of_suffix_length_le ⟨pre, hpre.symm⟩ ⟨pre', hpre'.symm⟩ hshort
    obtain ⟨c, rfl⟩ := suffix_of_suffix_length_le ⟨pre', hpre'.symm⟩ ⟨pre, hpre.symm⟩ hlong
    have hc : c = [] := by
      by_contra hne
      have hpos := logBytes_pos hne
      rw [logBytes_append, length_append] at hlen
      omega
    rw [hc]
    exact suffix_refl _

section inv

variable {j : DnsJournal} {log : List Txn} (h : Inv j log)

include h

theorem Inv.storedAt {a : List Txn} {p : Pos} (hne : a ≠ [])
    (hp : Placed (logStart j.index.length) j.header.end_.serial log p a) : StoredAt j log p.serial p := by
  cases a with
  | nil => exact absurd rfl hne
  | cons x post =>
    have hl := h.core.linked.suffix hp.suffix
    obtain ⟨hserial, pre, hlog, hoff⟩ := hp
    refine ⟨pre, post, x, hlog, hl.start.trans hserial.symm, rfl, hoff, logBytes post, ?_⟩
    rw [h.file_eq, hlog, logBytes_append, ← append_assoc, drop_left']
    · rw [logBytes_cons]
    · rw [length_append, head_length, hoff]

theorem Inv.placed_of_storedAt {serial : UInt32} {p : Pos} (hp : StoredAt j log serial p) :
    ∃ a, a ≠ [] ∧ serial = back j.header.end_.serial (dist a) ∧
      Placed (logStart j.index.length) j.header.end_.serial log p a := by
  obtain ⟨pre, post, x, hlog, hx, hserial, hoff, -⟩ := hp
  have hl : Linked j.header.end_.serial (x :: post) := h.core.linked.suffix ⟨pre, hlog.symm⟩
  have hback : serial = back j.header.end_.serial (dist (x :: post)) := by rw [← hx, hl.start]
  exact ⟨x :: post, cons_ne_nil x post, hback, hserial.trans hback, pre, hlog, hoff⟩

variable {d : ℕ}

theorem Inv.firstAt {p : Pos} (h0 : 0 < d) (hd : d < 2 ^ 31) (hdist : dist (within d (recent 0 log)) = d)
    (hp : Placed (logStart j.index.length) j.header.end_.serial log p (within d (recent 0 log))) :
    FirstAt j log (back j.header.end_.serial d) p := by
  have hwithin : within d (recent 0 log) ≠ [] := by
    intro hnil
    rw [hnil, dist_nil] at hdist
    omega
  have hlog : log ≠ [] := by
    rintro rfl
    exact hwithin rfl
  have hserial : p.serial = back j.header.end_.serial d := by rw [hp.1, hdist]
  have hbegin := h.core.begin_ hlog
  refine ⟨hserial ▸ h.storedAt hwithin hp, (hp.suffix_iff hbegin).1 (within_suffix d _), fun q hq hle => ?_⟩
  obtain ⟨a, -, hback, hplaced⟩ := h.placed_of_storedAt hq
  have ha := (hplaced.suffix_iff hbegin).2 hle
  have hcur := recent_dist (k := 0) (by omega) log
  have hda := dist_le_of_suffix ha
  rw [back_inj _ hd (by omega)] at hback
  exact (hplaced.suffix_iff hp).1 (suffix_within ha hback.ge)

theorem Inv.begin_serial : j.header.begin_.serial = back j.header.end_.serial (dist (recent 0 log)) := by
  by_cases hlog : log = []
  · rw [(h.core.fresh hlog).1, (h.core.fresh hlog).2, hlog]
    rfl
  · exact (h.core.begin_ hlog).1

theorem Inv.journalFind_outside (hd : dist (recent 0 log) < d) (hd' : d < 2 ^ 32) {index : List Pos}
    (hindex : ∀ p ∈ index, p ∈ j.index) :
    Journal.journalFind { j with index := index } (back j.header.end_.serial d) =
      stop (if d = 2 ^ 31 ∧ dist (recent 0 log) = 0 then .nomore else .range) := by
  have hcur := recent_dist (k := 0) (by omega) log
  have hbegin := h.begin_serial
  have hrange0 : gt j.header.begin_.serial (back j.header.end_.serial d) =
      decide (d < dist (recent 0 log) + 2 ^ 31) := by
    rw [hbegin, gt, sub_back _ (by omega) hd', decide_eq_decide]
    split <;> omega
  have hrange1 : gt (back j.header.end_.serial d) j.header.end_.serial = decide (2 ^ 31 < d) := by
    have hsub := sub_back j.header.end_.serial hd' (b := 0) (by omega)
    rw [back_zero] at hsub
    rw [gt, hsub, decide_eq_decide]
    split <;> omega
  rw [Journal.journalFind]
  simp only [hrange0, hrange1, decide_eq_true_eq]
  by_cases hhalf : d = 2 ^ 31 ∧ dist (recent 0 log) = 0
  · -- half the serial space away from a journal with one serial, which is neither before nor behind it
    obtain ⟨rfl, hzero⟩ := hhalf
    have hne : back j.header.end_.serial (2 ^ 31) ≠ j.header.end_.serial := by
      intro he
      have hsub := sub_back j.header.end_.serial (a := 2 ^ 31) (b := 0) (by omega) (by omega)
      rw [back_zero, he, UInt32.sub_self] at hsub
      simp at hsub
    rw [hzero, back_zero] at hbegin
    have hbest : indexFind index (back j.header.end_.serial (2 ^ 31)) j.header.begin_ = j.header.begin_ := by
      refine indexFind_none (fun p hp hv => ?_)
      obtain ⟨a, -, ha, hplaced⟩ := h.core.index p (hindex p hp) hv
      have hda := dist_le_of_suffix ha
      rw [hplaced.1, show dist a = 0 by omega, back_zero, hbegin]
      exact gt_eq_false_of_ge (ge_iff.2 (.inr rfl))
    have hnot : gt j.header.begin_.serial (back j.header.end_.serial (2 ^ 31)) = false := by
      rw [hrange0, hzero, decide_eq_false_iff_not]
      omega
    rw [if_neg (by omega), if_neg (by omega), if_neg hne, if_pos ⟨rfl, hzero⟩, hbest]
    exact findLoop_end hbegin (by rw [hbegin]; exact hne.symm) hnot
  rw [if_neg hhalf]
  split
  next => rfl
  next => rw [if_pos (by omega)]

theorem Inv.firstEntry_outside (hd : dist (recent 0 log) < d) (hd' : d < 2 ^ 32) :
    firstEntry j.index (back j.header.end_.serial d) = none := by
  rw [firstEntry, find?_eq_none]
  intro p hp hmatch
  rw [Bool.and_eq_true, beq_iff_eq] at hmatch
  obtain ⟨a, -, ha, hplaced⟩ := h.core.index p hp hmatch.1
  have hda := dist_le_of_suffix ha
  have hsub := sub_back j.header.end_.serial hd' (b := dist a) (by omega)
  rw [← hplaced.1, hmatch.2, UInt32.sub_self, UInt32.toNat_zero] at hsub
  split at hsub <;> omega

theorem Inv.scan (h0 : 0 < d) (hd : d < dist (recent 0 log)) :
    (dist (within d (recent 0 log)) = d → ∃ j' p,
      Journal.journalFind { j with index := [] } (back j.header.end_.serial d) = .ok (j', p) ∧
        Placed (logStart j.index.length) j.header.end_.serial log p (within d (recent 0 log))) ∧
    (dist (within d (recent 0 log)) ≠ d →
      Journal.journalFind { j with index := [] } (back j.header.end_.serial d) = stop .notfound) := by
  have hlog : log ≠ [] := by
    rintro rfl
    exact absurd hd (Nat.not_lt_zero d)
  have hcur : dist (recent 0 log) < 2 ^ 31 := by
    have hr := recent_dist (k := 0) (by omega) log
    omega
  have hbegin := h.core.begin_ hlog
  rw [← head_length j.header j.index] at hbegin ⊢
  have hholds : Holds { j with index := [] } (j.header.encode ++ encodeIndex j.index) log [] :=
    ⟨h.holds.file_eq, h.length_lt, h.core.linked⟩
  obtain ⟨hfound, hmissing⟩ := hholds.journalFind_scan hcur hbegin (fun p hp _ => (by cases hp)) h0 hd rfl
  refine ⟨fun hdist => ?_, hmissing⟩
  obtain ⟨o, p, hfind, hplaced⟩ := hfound hdist
  exact ⟨_, p, hfind, hplaced⟩

/-- Between the begin and the end of the journal, the first entry for the serial decides whether the index changes what is
found. -/
theorem Inv.hint_between (h0 : 0 < d) (hd : d < dist (recent 0 log)) : IsHint j log (back j.header.end_.serial d) ↔
      ∀ p, firstEntry j.index (back j.header.end_.serial d) = some p → FirstAt j log (back j.header.end_.serial d) p := by
  have hlog : log ≠ [] := by
    rintro rfl
    exact absurd hd (Nat.not_lt_zero d)
  have hcur : dist (recent 0 log) < 2 ^ 31 := by
    have hr := recent_dist (k := 0) (by omega) log
    omega
  have hbegin := h.core.begin_ hlog
  have hindex := h.core.index
  rw [← head_length j.header j.index] at hbegin hindex
  obtain ⟨hfound, hmissing⟩ := h.scan h0 hd
  cases hentry : firstEntry j.index (back j.header.end_.serial d) with
  | none =>
    refine ⟨fun _ p hp => (by cases hp), fun _ => ?_⟩
    obtain ⟨hfound', hmissing'⟩ := h.holds.journalFind_scan hcur hbegin hindex h0 hd hentry
    by_cases hdist : dist (within d (recent 0 log)) = d
    · obtain ⟨j1, p, hfind, hplaced⟩ := hfound hdist
      obtain ⟨o, p', hfind', hplaced'⟩ := hfound' hdist
      rw [head_length] at hplaced'
      obtain rfl := hplaced.unique hplaced'
      refine ⟨by rw [hfind, hfind']; rfl, fun j' q hq => .inr ?_⟩
      rw [hfind'] at hq
      cases hq
      exact (h.firstAt h0 (by omega) hdist hplaced).1
    refine ⟨by rw [hmissing hdist, hmissing' hdist], fun j' q hq => ?_⟩
    rw [hmissing' hdist] at hq
    cases hq
  | some p =>
    have hfind := journalFind_entry hcur hbegin hindex h0 hd hentry
    have hmatch := find?_some hentry
    rw [Bool.and_eq_true, beq_iff_eq] at hmatch
    obtain ⟨a, hne, ha, hplaced⟩ := h.core.index p (mem_of_find?_eq_some hentry) hmatch.1
    -- there is a transaction that starts from the serial
    have hda : dist a = d := by
      have hle := dist_le_of_suffix ha
      have hserial := hplaced.1
      rw [hmatch.2, back_inj _ (by omega) (by omega)] at hserial
      exact hserial.symm
    have hdist : dist (within d (recent 0 log)) = d :=
      le_antisymm (within_dist_le d _) (hda.ge.trans (dist_le_of_suffix (suffix_within ha hda.le)))
    obtain ⟨j1, p', hfind', hplaced'⟩ := hfound hdist
    have hfirst := h.firstAt h0 (by omega) hdist hplaced'
    constructor
    · intro hhint q hq
      cases hq
      have hsame := hhint.same
      rw [hfind, hfind'] at hsame
      cases hsame
      exact hfirst
    · intro hentries
      obtain rfl := (hentries p rfl).unique hfirst
      refine ⟨by rw [hfind, hfind']; rfl, fun j' q hq => .inr ?_⟩
      rw [hfind] at hq
      cases hq
      exact hfirst.1

theorem Inv.isHint_iff (serial : UInt32) : IsHint j log serial ↔ Unambiguous j log serial := by
  have hcur : dist (recent 0 log) < 2 ^ 31 := by
    have hr := recent_dist (k := 0) (by omega) log
    omega
  have hbegin := h.begin_serial
  have hback := eq_back j.header.end_.serial serial
  have hd' : (j.header.end_.serial - serial).toNat < 2 ^ 32 := UInt32.toNat_lt _
  generalize (j.header.end_.serial - serial).toNat = d at hback hd'
  obtain hzero | h0 := Nat.eq_zero_or_pos d
  · -- the end of the journal
    rw [hzero, back_zero] at hback
    subst hback
    have hfind : ∀ index : List Pos, Journal.journalFind { j with index := index } j.header.end_.serial =
        .ok ({ j with index := index }, j.header.end_) := fun index =>
      journalFind_end (j := { j with index := index }) hcur hbegin
    refine ⟨fun _ _ hne => absurd rfl hne, fun _ => ⟨?_, fun j' p hp => ?_⟩⟩
    · rw [hfind [], show Journal.journalFind j j.header.end_.serial = .ok (j, j.header.end_) from hfind j.index]
      rfl
    · rw [show Journal.journalFind j j.header.end_.serial = .ok (j, j.header.end_) from hfind j.index] at hp
      cases hp
      exact .inl ⟨rfl, rfl⟩
  have hend : serial ≠ j.header.end_.serial := by
    intro he
    have hsub := sub_back j.header.end_.serial hd' (b := 0) (by omega)
    rw [back_zero, ← hback, he, UInt32.sub_self, UInt32.toNat_zero] at hsub
    split at hsub <;> omega
  subst hback
  obtain hlt | rfl | hgt := Nat.lt_trichotomy d (dist (recent 0 log))
  · have hne : back j.header.end_.serial d ≠ j.header.begin_.serial := by
      rw [hbegin, ne_eq, back_inj _ (by omega) (by omega)]
      omega
    rw [h.hint_between h0 hlt]
    exact ⟨fun hentries _ _ => hentries, fun hun => hun hne hend⟩
  · -- the begin of the journal
    have hlog : log ≠ [] := by
      rintro rfl
      exact absurd h0 (Nat.not_lt_zero 0)
    have hfind : ∀ index : List Pos, Journal.journalFind { j with index := index } (back j.header.end_.serial
        (dist (recent 0 log))) = .ok ({ j with index := index }, j.header.begin_) := fun index =>
      journalFind_begin (j := { j with index := index }) hbegin h0 hcur
    refine ⟨fun _ hne => absurd hbegin.symm hne, fun _ => ⟨?_, fun j' p hp => ?_⟩⟩
    · rw [hfind []]
      have hj := hfind j.index
      rw [show Journal.journalFind j _ = _ from hj]
      rfl
    · rw [show Journal.journalFind j _ = _ from hfind j.index] at hp
      cases hp
      have hnil : recent 0 log ≠ [] := recent_ne_nil h.core.linked hlog
      exact .inr (hbegin ▸ h.storedAt hnil (h.core.begin_ hlog))
  · have hfind := h.journalFind_outside hgt hd' (fun p hp => hp)
    have hfind' := h.journalFind_outside hgt hd' (fun p hp => absurd hp not_mem_nil)
    refine ⟨fun _ _ _ p hp => ?_, fun _ => ⟨?_, fun j' p hp => ?_⟩⟩
    · rw [h.firstEntry_outside hgt hd'] at hp
      cases hp
    · rw [hfind', show Journal.journalFind j _ = _ from hfind]
    · rw [show Journal.journalFind j _ = _ from hfind] at hp
      cases hp

theorem Inv.unambiguous (hrising : Rising log) (serial : UInt32) : Unambiguous j log serial := by
  intro hbegin hend p hp
  have hmatch := find?_some hp
  rw [Bool.and_eq_true, beq_iff_eq] at hmatch
  obtain ⟨a, hne, ha, hplaced⟩ := h.core.index p (mem_of_find?_eq_some hp) hmatch.1
  have hrec := hrising.suffix (recent_suffix 0 log)
  have hcur := recent_dist (k := 0) (by omega) log
  have hda := dist_le_of_suffix ha
  have hwithin : within (dist a) (recent 0 log) = a :=
    (hrec.eq_of_dist_eq ha (within_suffix _ _) (le_antisymm (dist_le_of_suffix (suffix_within ha le_rfl))
      (within_dist_le _ _))).symm
  rw [← hmatch.2, hplaced.1]
  refine h.firstAt ((hrec.suffix ha).dist_pos hne) (by omega) (by rw [hwithin]) ?_
  rw [hwithin]
  exact hplaced

end inv

/-- Over every run of committed transactions, the index does not change what `journal_find` finds exactly where it is not
ambiguous, and it never is when every transaction moves the serial. -/
theorem index_is_hint {q : Qsort} {j : DnsJournal} {log : List Txn} (h : Reachable q j log) (hlt : j.file.length < 2 ^ 32) :
    (∀ serial, IsHint j log serial ↔ Unambiguous j log serial) ∧ (Rising log → ∀ serial, IsHint j log serial) := by
  obtain ⟨hinv, -⟩ := h.inv hlt
  exact ⟨hinv.isHint_iff, fun hrising serial => (hinv.isHint_iff serial).2 (hinv.unambiguous hrising serial)⟩

/-! ### Runs with given serials -/

/-- A transaction of two SOA records. -/
def soaTxn (a b : ℕ) : Txn := ⟨[soaTuple .del a, soaTuple .add b]⟩

theorem soaTxn_sorted (a b : ℕ) : soaTxn a b = ⟨Qsort.mergeSort.sort ixfrOrder (soaTxn a b).tuples⟩ := by
  have hle : (ixfrOrder (soaTuple .del a) (soaTuple .add b)).isLE = true := rfl
  simp [soaTxn, Qsort.mergeSort, mergeSort, List.MergeSort.Internal.splitInTwo, hle]

theorem soaTxn_encodable (a b : ℕ) : ∀ t ∈ (soaTxn a b).tuples, Encodable t := by
  intro t ht
  obtain rfl | rfl : t = soaTuple .del a ∨ t = soaTuple .add b := by simpa [soaTxn] using ht
  · exact (soaTuple_storable .del a).encodable
  · exact (soaTuple_storable .add b).encodable

/-- A journal of a run, with what is known about it. -/
structure RunTo (j : DnsJournal) (log : List Txn) (index : List Pos) (last : UInt32) (size : ℕ) : Prop where
  reachable : Reachable .mergeSort j log
  inv : Inv j log
  state : j.state = .write
  index : j.index = index
  last : log ≠ [] → j.header.end_.serial = last
  size : j.file.length = size

theorem runTo_fresh : ∃ j, RunTo j [] (replicate 56 .invalid) 0 512 := by
  obtain ⟨j, hopen, hfile, hheader, hindex, -⟩ := journalFileCreate_onDisk.journalOpen true
  obtain ⟨hinv, hstate⟩ := inv_fresh hopen
  refine ⟨j, .fresh hopen, hinv, hstate, hindex, fun hne => absurd rfl hne, ?_⟩
  rw [hfile, journalFileCreate, length_append, Header.encode_length, length_replicate]
  rfl

theorem RunTo.write {j : DnsJournal} {log : List Txn} {index index' : List Pos} {last : UInt32} {size : ℕ} {a b : ℕ}
    (h : RunTo j log index last size) (hge : ge (soaTxn a b).serial1 (soaTxn a b).serial0 = true)
    (h0 : log ≠ [] → (soaTxn a b).serial0 = last) (hmoves : log ≠ [] → 0 < (soaTxn a b).step + dist (recent 0 log))
    (hlen : size + 86 < 2 ^ 32) (hindex : indexAdd (if log.isEmpty then index else indexInvalidate index (soaTxn a b).serial1)
      ⟨(soaTxn a b).serial0, size⟩ = .ok index') :
    ∃ j', RunTo j' (log ++ [soaTxn a b]) index' (soaTxn a b).serial1 (size + 86) := by
  have hbytes : (soaTxn a b).bytes.length = 86 := rfl
  have hsoas : (soaSerials (soaTxn a b).tuples).length = 2 := rfl
  have hcontinues : log ≠ [] → (soaTxn a b).serial0 = j.header.end_.serial := fun hne =>
    (h0 hne).trans (h.last hne).symm
  obtain ⟨j', hwrite, hsize⟩ := h.inv.writeTransaction_ok h.state (soaTxn_sorted a b) (soaTxn_encodable a b) hsoas hge
    hcontinues hmoves (by rw [hbytes, h.size]; exact hlen)
  rw [hbytes, h.size] at hsize
  obtain ⟨hinv, hcommitted, -⟩ := h.inv.writeTransaction h.state (soaTxn_sorted a b) (soaTxn_encodable a b) hwrite
    (by rw [hsize]; exact hlen)
  have hadd := hcommitted.index
  have hempty : j.header.empty = log.isEmpty := by
    rw [Bool.eq_iff_iff, h.inv.core.empty_iff, List.isEmpty_iff]
  rw [purgedIndex, hempty, h.index, h.size, hindex] at hadd
  exact ⟨j', .write h.reachable (soaTxn_sorted a b) (soaTxn_encodable a b) hwrite, hinv, hcommitted.state,
    (Except.ok.inj hadd).symm, fun _ => hcommitted.last, hsize⟩

theorem index_is_hint_rising : ∃ j, Reachable .mergeSort j [soaTxn 1 2, soaTxn 2 3] ∧
    IsHint j [soaTxn 1 2, soaTxn 2 3] 2 := by
  obtain ⟨j0, h₀⟩ := runTo_fresh
  obtain ⟨j1, h1⟩ := h₀.write (a := 1) (b := 2) (by decide) (fun hne => absurd rfl hne) (fun hne => absurd rfl hne) (by omega) rfl
  obtain ⟨j2, h2⟩ := h1.write (a := 2) (b := 3) (by decide) (fun _ => by decide) (fun _ => by decide) (by omega) rfl
  have hrising : Rising [soaTxn 1 2, soaTxn 2 3] := by
    intro x hx
    obtain rfl | rfl : x = soaTxn 1 2 ∨ x = soaTxn 2 3 := by simpa using hx
    · decide
    · decide
  exact ⟨j2, h2.reachable, (index_is_hint h2.reachable (by rw [h2.size]; omega)).2 hrising 2⟩

/-- After transactions from 1 to 2, twice from 2 to 2, and from 2 to 3, the index has lost the first transaction that starts
from 2. -/
theorem index_skips_transaction : ∃ j log, Reachable .mergeSort j log ∧ j.file.length < 2 ^ 32 ∧
    (journalFind j 2).map Prod.snd = .ok ⟨2, 684⟩ ∧
    (journalFind { j with index := [] } 2).map Prod.snd = .ok ⟨2, 598⟩ := by
  obtain ⟨j0, h₀⟩ := runTo_fresh
  obtain ⟨j1, h1⟩ := h₀.write (a := 1) (b := 2) (by decide) (fun hne => absurd rfl hne) (fun hne => absurd rfl hne) (by omega) rfl
  obtain ⟨j2, h2⟩ := h1.write (a := 2) (b := 2) (by decide) (fun _ => by decide) (fun _ => by decide) (by omega) rfl
  obtain ⟨j3, h3⟩ := h2.write (a := 2) (b := 2) (by decide) (fun _ => by decide) (fun _ => by decide) (by omega) rfl
  obtain ⟨j4, h4⟩ := h3.write (a := 2) (b := 3) (by decide) (fun _ => by decide) (fun _ => by decide) (by omega) rfl
  have hlog : [] ++ [soaTxn 1 2] ++ [soaTxn 2 2] ++ [soaTxn 2 2] ++ [soaTxn 2 3] = [soaTxn 1 2] ++ [soaTxn 2 2, soaTxn 2 2, soaTxn 2 3] :=
    rfl
  have hlast : j4.header.end_.serial = 3 := h4.last (by simp)
  have hlength : j4.index.length = 56 := by rw [h4.index]; rfl
  rw [hlog] at h4
  have hdist : dist (recent 0 ([soaTxn 1 2] ++ [soaTxn 2 2, soaTxn 2 2, soaTxn 2 3])) = 2 := by decide
  have hbegin := h4.inv.core.begin_ (by simp)
  have hindex := h4.inv.core.index
  rw [← head_length j4.header j4.index] at hbegin hindex
  refine ⟨j4, _, h4.reachable, by rw [h4.size]; omega, ?_, ?_⟩
  · have hentry : firstEntry j4.index (back j4.header.end_.serial 1) = some ⟨2, 684⟩ := by
      rw [hlast, h4.index]
      rfl
    have hfind := journalFind_entry (by rw [hdist]; omega) hbegin hindex Nat.one_pos (by rw [hdist]; omega) hentry
    rw [hlast] at hfind
    rw [show (2 : UInt32) = back 3 1 from rfl, hfind]
    rfl
  · have hwithin : within 1 (recent 0 ([soaTxn 1 2] ++ [soaTxn 2 2, soaTxn 2 2, soaTxn 2 3])) =
        [soaTxn 2 2, soaTxn 2 2, soaTxn 2 3] := rfl
    obtain ⟨j', p, hfind, hserial, pre, hpre, hoff⟩ := (h4.inv.scan Nat.one_pos (by rw [hdist]; omega)).1 (by decide)
    rw [hwithin] at hserial hpre
    obtain rfl : pre = [soaTxn 1 2] := (append_cancel_right hpre).symm
    rw [hlength] at hoff
    rw [hlast] at hfind hserial
    have hp : p = ⟨2, 598⟩ := by
      cases p with
      | mk serial offset =>
        simp only at hserial hoff
        rw [hserial, hoff]
        rfl
    rw [show (2 : UInt32) = back 3 1 from rfl, hfind, hp]
    rfl

end Bind9.Journal
