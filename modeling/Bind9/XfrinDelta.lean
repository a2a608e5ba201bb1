import Bind9.Xfrin
import Bind9.ZoneView

/-! # Incremental transfers commit whole changes

A delta is what an IXFR response says about one step of the zone: an old SOA record and deletions, a new SOA record and
additions.  `xfr_rr` collects its tuples in `diff`, moves them to a version of the database and to the journal whenever
there are more than a hundred, and commits them at the SOA record behind the last addition.

`Working` ties these places together: what was applied to the version and written to the journal, followed by `diff`, is
the delta so far.  The SOA record of the zone is followed separately (`soaAfter`), because the transfer itself reads only
the serials of the SOA records that it receives. -/

namespace Bind9.Xfrin

open List
open Option hiding all_eq_true mem_map

open Diff ZoneDb Journal Serial Std Hoare

/-! ### Deltas -/

/-- The serial in a SOA record. -/
def serialOf (r : Rr) : UInt32 := decodeUint32 (r.rdata.drop (r.rdata.length - 20))

/-- One step of a zone in an IXFR response. -/
structure Delta where
  old : Rr
  dels : List Rr
  new : Rr
  adds : List Rr
  old_soa : old.type = soa
  dels_plain : ∀ r ∈ dels, r.type ≠ soa
  new_soa : new.type = soa
  adds_plain : ∀ r ∈ adds, r.type ≠ soa

/-- The records of a delta, in the order of the response. -/
def Delta.rrs (d : Delta) : List Rr := (d.old :: d.dels) ++ (d.new :: d.adds)

def Delta.tuples (d : Delta) : Tuples :=
  (d.old :: d.dels).map (Rr.tuple .del) ++ (d.new :: d.adds).map (Rr.tuple .add)

def Delta.txn (d : Delta) : Txn := ⟨d.tuples⟩

noncomputable def Delta.apply (ops : RdataOps) (v : ZoneDb.View) (d : Delta) : ZoneDb.View :=
  d.tuples.foldl (ZoneDb.View.apply ops) v

/-- Where the SOA record of the zone is. -/
def soaKey (origin : Name) : Key := ⟨origin.lower, soa, 0⟩

/-- `dns_db_getsoaserial`. -/
def zoneSerial (origin : Name) (z : Zone) : Option UInt32 :=
  (z.find (soaKey origin)).map (fun s => decodeUint32 ((s.rdata.1.headD []).drop ((s.rdata.1.headD []).length - 20)))

/-- The deltas lead from one zone to another: each starts from the serial that the zone has then. -/
inductive Commits (ops : RdataOps) (origin : Name) (z : Zone) : List Delta → Zone → Prop
  | nil : Commits ops origin z [] z
  | snoc {ds : List Delta} {d : Delta} {y y' : Zone} : Commits ops origin z ds y → zoneSerial origin y = some (serialOf d.old) →
      view ops y' = d.apply ops (view ops y) → Commits ops origin z (ds ++ [d]) y'

/-- What is committed: the deltas `ds`, each with one transaction in the journal. -/
structure Good (env : Env) (s0 : Ctx) (ds : List Delta) (s : Ctx) : Prop where
  commits : Commits env.ops env.origin s0.zone ds s.zone
  journal : s.journalfile = s0.journalfile.map (fun log => log ++ ds.map Delta.txn)

def lastSerial (start : UInt32) (ds : List Delta) : UInt32 := (ds.getLast?.map (fun d => serialOf d.new)).getD start

@[simp] theorem lastSerial_nil (start : UInt32) : lastSerial start [] = start := rfl

@[simp] theorem lastSerial_snoc (start : UInt32) (ds : List Delta) (d : Delta) :
    lastSerial start (ds ++ [d]) = serialOf d.new := by
  simp [lastSerial]

/-! ### The SOA record of a version -/

def soaAfter (o : Option Rbtdb.Rdataset) (ts : Tuples) : Option Rbtdb.Rdataset :=
  ts.foldl (fun o t => if t.type = soa then
    if adds t then some ⟨t.ttl, [t.rdata], cons_ne_nil _ _⟩ else none else o) o

/-- The SOA records of a delta: the first one is deleted, and one is added later. -/
def Shape (cur : Tuples) : Prop := ∀ a t b, cur = a ++ t :: b → t.type = soa →
  (adds t = false ∧ a = []) ∨ (adds t = true ∧ ∃ o a', a = o :: a' ∧ o.type = soa ∧ adds o = false ∧ ∀ x ∈ a', x.type ≠ soa)

theorem soaAfter_append (o : Option Rbtdb.Rdataset) (a b : Tuples) :
    soaAfter o (a ++ b) = soaAfter (soaAfter o a) b := foldl_append

theorem soaAfter_plain (o : Option Rbtdb.Rdataset) : ∀ {ts : Tuples}, (∀ t ∈ ts, t.type ≠ soa) → soaAfter o ts = o
  | [], _ => rfl
  | t :: ts, h => by
    rw [soaAfter, foldl_cons, if_neg (h t mem_cons_self)]
    exact soaAfter_plain o (fun x hx => h x (mem_cons_of_mem t hx))
theorem Shape.nil : Shape [] := by
  intro a t b h
  simp at h

/-- The cases of a list that ends in `u`. -/
theorem snoc_split {cur a b : Tuples} {t u : DiffTuple} (h : cur ++ [u] = a ++ t :: b) :
    (b = [] ∧ t = u ∧ a = cur) ∨ ∃ b', cur = a ++ t :: b' := by
  obtain rfl | ⟨b', x, rfl⟩ := b.eq_nil_or_concat
  · obtain ⟨h1, h2⟩ := append_inj' h rfl
    cases h2
    exact .inl ⟨rfl, rfl, h1.symm⟩
  have h' : cur ++ [u] = (a ++ t :: b') ++ [x] := by
    rw [h, concat_eq_append, append_assoc, cons_append]
  obtain ⟨h1, -⟩ := append_inj' h' rfl
  exact .inr ⟨b', h1⟩

theorem Shape.plain {cur : Tuples} {u : DiffTuple} (h : Shape cur) (hu : u.type ≠ soa) : Shape (cur ++ [u]) := by
  intro a t b he ht
  obtain ⟨-, rfl, -⟩ | ⟨b', hb⟩ := snoc_split he
  · exact absurd ht hu
  · exact h a t b' hb ht

theorem Shape.first {u : DiffTuple} (hu : adds u = false) : Shape [u] := by
  intro a t b he ht
  obtain ⟨-, rfl, rfl⟩ | ⟨b', hb⟩ := snoc_split (show [] ++ [u] = a ++ t :: b from he)
  · exact .inl ⟨hu, rfl⟩
  · simp at hb

theorem Shape.second {o u : DiffTuple} {a : Tuples} (ho : o.type = soa) (ho' : adds o = false)
    (ha : ∀ x ∈ a, x.type ≠ soa) (hu : adds u = true) (h : Shape (o :: a)) : Shape (o :: a ++ [u]) := by
  intro b t c he ht
  obtain ⟨-, rfl, rfl⟩ | ⟨c', hc⟩ := snoc_split he
  · exact .inr ⟨hu, o, a, rfl, ho, ho', ha⟩
  · exact h b t c' hc ht

/-- The records of the zone's class, with the SOA records at its origin. -/
structure Proper (env : Env) (t : DiffTuple) : Prop where
  rdclass : t.rdclass = env.rdclass
  length : t.rdata.length < 65536
  soa : t.type = soa → 20 ≤ t.rdata.length ∧ tupleKey t = soaKey env.origin

theorem diffApply_soa {env : Env} {z z' : Zone} {o : Option Rbtdb.Rdataset} {applied diff : Tuples}
    (hshape : Shape (applied ++ diff)) (hproper : ∀ t ∈ applied ++ diff, Proper env t)
    (ho : ∃ s, o = some s ∧ s.rdata.1.length = 1) (hz : z.find (soaKey env.origin) = soaAfter o applied)
    (h : diffApply env.toEnv z diff = .ok z') : z'.find (soaKey env.origin) = soaAfter o (applied ++ diff) := by
  refine groups_induction (motive := fun done y => y.find (soaKey env.origin) = soaAfter o (applied ++ done)) ?_ ?_ h
  · rw [hz, append_nil]
  · intro done t ts rest y y' hdiff hts hy hgroup
    have hcur : applied ++ diff = (applied ++ done) ++ t :: (ts ++ rest) := by
      rw [hdiff, append_assoc, cons_append]
    have hmem : t ∈ applied ++ diff := by
      rw [hcur]
      exact mem_append_right _ mem_cons_self
    rw [← append_assoc, soaAfter_append, ← hy]
    by_cases ht : t.type = soa
    · have hkey := ((hproper t hmem).soa ht).2
      have hsame : ∀ u ∈ ts, u.type = soa ∧ adds u = adds t := by
        intro u hu
        obtain ⟨hk, hop⟩ := hts u hu
        have htype : (tupleKey u).type.base = (tupleKey t).type.base := by rw [hk]
        exact ⟨htype.trans ht, by rw [adds, adds, hop]⟩
      -- a second SOA record of the group would be another one of its kind
      have hnil : ts = [] := by
        cases ts with
        | nil => rfl
        | cons u us =>
          obtain ⟨hu, hadd⟩ := hsame u mem_cons_self
          have hcur' : applied ++ diff = ((applied ++ done) ++ [t]) ++ u :: (us ++ rest) := by
            rw [hcur]
            simp
          obtain ⟨-, hl⟩ | ⟨hu', p, a', hl, -, hp, ha'⟩ := hshape _ u _ hcur' hu
          · simp at hl
          rw [hadd] at hu'
          have htm : t ∈ p :: a' := by
            rw [← hl]
            exact mem_append_right _ mem_cons_self
          obtain rfl | htm := mem_cons.1 htm
          · rw [hp] at hu'
            cases hu'
          · exact absurd ht (ha' t htm)
      subst hnil
      rw [← hkey] at hy ⊢
      obtain ⟨hadd, ha⟩ | ⟨hadd, p, a', ha, hp, hpd, ha'⟩ := hshape _ t _ hcur ht
      · obtain ⟨s, rfl, hs⟩ := ho
        rw [ha] at hy
        rw [applyGroup_del_one hadd hy hs hgroup, soaAfter, foldl_cons, if_pos ht, hadd, if_neg Bool.false_ne_true]
        rfl
      have hnone : soaAfter o (applied ++ done) = none := by
        rw [ha, soaAfter, foldl_cons, if_pos hp, hpd, if_neg Bool.false_ne_true]
        exact soaAfter_plain none ha'
      rw [hnone] at hy
      rw [applyGroup_add_one hadd hy hgroup, soaAfter, foldl_cons, if_pos ht, if_pos hadd]
      rfl
    have hne : soaKey env.origin ≠ tupleKey t := by
      intro he
      have htype : (soaKey env.origin).type.base = (tupleKey t).type.base := by rw [he]
      exact ht htype.symm
    rw [applyGroup_find_ne hne hgroup, soaAfter_plain]
    intro u hu
    obtain rfl | hu := mem_cons.1 hu
    · exact ht
    · have htype : (tupleKey u).type.base = (tupleKey t).type.base := by rw [(hts u hu).1]
      exact fun hs => ht (htype.symm.trans hs)

/-! ### The places where a delta is -/

/-- The fields that steer the transfer. -/
def Ctx.ctl (s : Ctx) : State × UInt32 × UInt32 × UInt32 × Reqtype × Database :=
  (s.state, s.endSerial, s.currentSerial, s.requestSerial, s.reqtype, s.db)

/-- The deltas `ds` are committed, and `cur` is the next one as far as it is known: `applied` is in the version and in
the transaction of the journal, the rest in `diff`. -/
structure Working (env : Env) (s0 : Ctx) (ds : List Delta) (cur applied : Tuples) (s : Ctx) : Prop where
  good : Good env s0 ds s
  ordered : Ordered env.ops s.zone
  apex : ∃ x, s.zone.find (soaKey env.origin) = some x ∧ x.rdata.1.length = 1
  serial : zoneSerial env.origin s.zone = some (lastSerial s0.requestSerial ds)
  cur_eq : cur = applied ++ s.diff
  fresh : s.ver = none → applied = []
  ver_ordered : Ordered env.ops (s.ver.getD s.zone)
  ver_view : view env.ops (s.ver.getD s.zone) = applied.foldl (ZoneDb.View.apply env.ops) (view env.ops s.zone)
  ver_soa : (s.ver.getD s.zone).find (soaKey env.origin) = soaAfter (s.zone.find (soaKey env.origin)) applied
  journal : s.journal = s0.journalfile.map (fun _ => s.ver.map (fun _ => applied))
  shape : Shape cur
  proper : ∀ t ∈ cur, Proper env t

/-- The same, with a version open or not as it may be. -/
def Work (env : Env) (s0 : Ctx) (ds : List Delta) (cur : Tuples) (s : Ctx) : Prop :=
  ∃ applied, Working env s0 ds cur applied s

/-- The kinds of faults and failures: no error after the journal's header was written, no failed assertion. -/
abbrev Timely (f : Fault) : Prop := f.late = false

abbrev Orderly (e : Stop) : Prop := e ≠ .assertion

theorem orderly_result (r : Result) : Orderly (.result r) := fun h => by cases h

section working

variable {env : Env} {s0 : Ctx} {ds : List Delta} {cur : Tuples} {c : State × UInt32 × UInt32 × UInt32 × Reqtype × Database}

variable {j : Option (Option Tuples)}

variable {s : Ctx}

/-- A new version, and a transaction if there is a journal. -/
theorem Working.opened (hw : Working env s0 ds cur [] s)
    (hj : j = s0.journalfile.map (fun _ => some [])) :
    Working env s0 ds cur [] { s with ver := some s.zone, journal := j } where
  good := ⟨hw.good.commits, hw.good.journal⟩
  ordered := hw.ordered
  apex := hw.apex
  serial := hw.serial
  cur_eq := hw.cur_eq
  fresh _ := rfl
  ver_ordered := hw.ordered
  ver_view := rfl
  ver_soa := rfl
  journal := hj
  shape := hw.shape
  proper := hw.proper

variable {applied : Tuples}

theorem Working.journal_isSome (hw : Working env s0 ds cur applied s) : s.journal.isSome = s0.journalfile.isSome := by
  rw [hw.journal, isSome_map]

theorem ixfrOpen_spec : Triple (On Timely (fun s => Working env s0 ds cur applied s ∧ s.ctl = c)) ixfrOpen
      (fun _ => On Timely (fun s => Working env s0 ds cur applied s ∧ s.ver.isSome = true ∧ s.ctl = c))
      (Err Orderly (fun s => Good env s0 ds s ∧ s.ctl = c)) := by
  refine context_bind (fun s hs => ?_)
  obtain ⟨hw, hc⟩ := hs
  refine runIf_spec (fun hver => ?_) (fun w hver hx => ?_)
  · have hnone : s.ver = none := isNone_iff_eq_none.1 hver
    have hfresh := hw.fresh hnone
    subst hfresh
    refine (call_spec orderly_result (by rintro t rfl; exact ⟨hw.good, hc⟩)).bind (fun _ => ?_)
    refine Triple.bind (update_spec (Q := fun t => t = { s with ver := some s.zone }) (by rintro t rfl; rfl)) (fun _ => ?_)
    have hsome := hw.journal_isSome
    have hjournal := hw.journal
    rw [hnone, map_none] at hjournal
    refine runIf_spec (fun hj => ?_) (fun w hj hx => ?_)
    · rw [hj] at hsome
      obtain ⟨log, hlog⟩ := isSome_iff_exists.1 hsome.symm
      refine context_bind ?_
      rintro t rfl
      refine (insist_spec (fun _ _ => .inl ?_)).bind (fun _ => ?_)
      · rw [hjournal, hlog]
        rfl
      refine (call_spec orderly_result ?_).bind (fun _ => update_spec ?_)
      · rintro t rfl
        exact ⟨⟨hw.good.commits, hw.good.journal⟩, hc⟩
      · rintro t rfl
        exact ⟨hw.opened (by rw [hlog]; rfl), rfl, hc⟩
    · refine hx.mono ?_
      rintro t rfl
      rw [hj] at hsome
      have hlog : s0.journalfile = none := isSome_eq_false_iff.1 hsome.symm |> isNone_iff_eq_none.1
      refine ⟨hw.opened ?_, rfl, hc⟩
      rw [hjournal, hlog]
      rfl
  · refine hx.mono ?_
    rintro t rfl
    refine ⟨hw, ?_, hc⟩
    cases hv : t.ver with
    | none =>
      rw [hv] at hver
      cases hver
    | some v => rfl

/-- `diff` moved to the version and to the journal. -/
theorem Working.flushed (htrans : ∀ type, TransCmp (env.ops.compare type))
    (hw : Working env s0 ds cur applied s) {v : Zone} (hv : diffApply env.toEnv (s.ver.getD s.zone) s.diff = .ok v)
    (hj : j = s0.journalfile.map (fun _ => some cur)) :
    Working env s0 ds cur cur { s with ver := some v, journal := j, diff := [], difflen := 0 } := by
  obtain ⟨hord, hview⟩ := diffApply_view htrans hw.ver_ordered hv
  have hshape := hw.shape
  have hproper := hw.proper
  rw [hw.cur_eq] at hshape hproper
  have hsoa := diffApply_soa hshape hproper (by obtain ⟨x, hx, hl⟩ := hw.apex; exact ⟨x, hx, hl⟩) hw.ver_soa hv
  rw [hw.ver_view, ← foldl_append, ← hw.cur_eq] at hview
  rw [← hw.cur_eq] at hsoa
  exact {
    good := ⟨hw.good.commits, hw.good.journal⟩
    ordered := hw.ordered
    apex := hw.apex
    serial := hw.serial
    cur_eq := (append_nil cur).symm
    fresh := fun h => absurd h (some_ne_none v)
    ver_ordered := hord
    ver_view := hview
    ver_soa := hsoa
    journal := hj
    shape := hw.shape
    proper := hw.proper }

theorem ixfrApply_spec (htrans : ∀ type, TransCmp (env.ops.compare type)) :
    Triple (On Timely (fun s => Work env s0 ds cur s ∧ s.ctl = c)) (ixfrApply env)
      (fun _ => On Timely (fun s => Working env s0 ds cur cur s ∧ s.ver.isSome = true ∧ s.ctl = c))
      (Err Orderly (fun s => Good env s0 ds s ∧ s.ctl = c)) := by
  rintro w ⟨⟨⟨applied, hwork⟩, hctl⟩, hfaults⟩
  refine (?_ : Triple (On Timely (fun s => Working env s0 ds cur applied s ∧ s.ctl = c)) _ _ _) w ⟨⟨hwork, hctl⟩, hfaults⟩
  refine ixfrOpen_spec.bind (fun _ => context_bind (fun s hs => ?_))
  obtain ⟨hw, hver, hc⟩ := hs
  obtain ⟨v0, hv0⟩ := isSome_iff_exists.1 hver
  have hgood : ∀ t : Ctx, t = s → Good env s0 ds t ∧ t.ctl = c := by
    rintro t rfl
    exact ⟨hw.good, hc⟩
  refine (call_spec orderly_result hgood).bind (fun _ => ?_)
  have hclass : ∀ t ∈ s.diff, t.rdclass = env.rdclass := by
    intro t ht
    refine (hw.proper t ?_).rdclass
    rw [hw.cur_eq]
    exact mem_append_right _ ht
  refine (check_spec (fun t e ht he => ⟨?_, hgood t ht⟩)).bind (fun v => ?_)
  · rintro rfl
    exact diffApply_ne_assertion hclass he
  refine Triple.of_pre (fun w hx => hx.1.2) (fun hv => ?_)
  refine Triple.bind (update_spec (Q := fun t => t = { s with ver := some v }) (by rintro t ⟨rfl, -⟩; rfl)) (fun _ => ?_)
  have hjournal := hw.journal
  rw [hv0, map_some] at hjournal
  have hsome := hw.journal_isSome
  refine Triple.bind (R := fun _ => On Timely (fun t => t = { s with
    ver := some v, journal := s0.journalfile.map (fun _ => some cur) })) ?_ (fun _ => ?_)
  · refine runIf_spec (fun hj => ?_) (fun w hj hx => ?_)
    · rw [hj] at hsome
      obtain ⟨log, hlog⟩ := isSome_iff_exists.1 hsome.symm
      rw [hlog, map_some] at hjournal
      refine context_bind ?_
      rintro t rfl
      have hcur : s.journal.join.getD [] ++ s.diff = cur := by
        rw [hjournal, hw.cur_eq]
        rfl
      refine (insist_spec (fun _ _ => .inl ?_)).bind (fun _ => ?_)
      · rw [hjournal]
        rfl
      refine (insist_spec (fun _ _ => .inl ?_)).bind (fun _ => ?_)
      · rw [hcur, all_eq_true]
        intro t ht
        have htc := mem_filter.1 (mem_of_mem_take ht)
        exact decide_eq_true ((hw.proper t htc.1).soa (of_decide_eq_true htc.2)).1
      refine (insist_spec (fun _ _ => .inl ?_)).bind (fun _ => ?_)
      · rw [all_eq_true]
        intro t ht
        refine decide_eq_true (hw.proper t ?_).length
        rw [hw.cur_eq]
        exact mem_append_right _ ht
      refine (call_spec orderly_result ?_).bind (fun _ => update_spec ?_)
      · rintro t rfl
        exact ⟨⟨hw.good.commits, hw.good.journal⟩, hc⟩
      · rintro t rfl
        rw [hcur, hlog]
        rfl
    · refine hx.mono ?_
      rintro t rfl
      rw [hj] at hsome
      have hlog : s0.journalfile = none := isSome_eq_false_iff.1 hsome.symm |> isNone_iff_eq_none.1
      rw [hlog] at hjournal ⊢
      rw [map_none] at hjournal ⊢
      rw [hjournal]
  · refine update_spec ?_
    rintro t rfl
    exact ⟨hw.flushed htrans hv rfl, rfl, hc⟩

theorem Delta.soaAfter_tuples (o : Option Rbtdb.Rdataset) (d : Delta) :
    soaAfter o d.tuples = some ⟨d.new.ttl, [d.new.rdata], cons_ne_nil _ _⟩ := by
  have hplain : ∀ (op : DiffOp) (rs : List Rr), (∀ r ∈ rs, r.type ≠ soa) → ∀ t ∈ rs.map (Rr.tuple op), t.type ≠ soa := by
    intro op rs h t ht
    obtain ⟨r, hr, rfl⟩ := mem_map.1 ht
    exact h r hr
  have hnew : soaAfter (soaAfter o ((d.old :: d.dels).map (Rr.tuple .del))) [d.new.tuple .add] =
      some ⟨d.new.ttl, [d.new.rdata], cons_ne_nil _ _⟩ := by
    rw [soaAfter, foldl_cons]
    exact if_pos d.new_soa
  rw [Delta.tuples, soaAfter_append]
  show soaAfter (soaAfter o ((d.old :: d.dels).map (Rr.tuple .del))) ([d.new.tuple .add] ++ d.adds.map (Rr.tuple .add)) = _
  rw [soaAfter_append, hnew]
  exact soaAfter_plain _ (hplain .add d.adds d.adds_plain)

/-- The version with a whole delta becomes the zone. -/
theorem Working.committed {d : Delta} (hw : Working env s0 ds d.tuples d.tuples s)
    (hver : s.ver.isSome = true) (hold : serialOf d.old = lastSerial s0.requestSerial ds)
    {file : Option (List Txn)} (hfile : file = s.journalfile.map (fun log => log ++ [d.txn]))
    (hj : j = s0.journalfile.map (fun _ => none)) :
    Working env s0 (ds ++ [d]) [] [] (closeversion { s with journalfile := file, journal := j }) := by
  obtain ⟨v, hv⟩ := isSome_iff_exists.1 hver
  have hord := hw.ver_ordered
  have hview := hw.ver_view
  have hsoa := hw.ver_soa
  have hdiff : s.diff = [] := self_eq_append_right.1 hw.cur_eq
  rw [hv, getD_some] at hord hview hsoa
  rw [Delta.soaAfter_tuples] at hsoa
  have hzone : (closeversion { s with journalfile := file, journal := j }).zone = v := by
    rw [closeversion, hv]
    rfl
  have hserial := hw.serial
  rw [← hold] at hserial
  exact {
    good := by
      refine ⟨?_, ?_⟩
      · rw [hzone]
        exact .snoc hw.good.commits hserial hview
      · show file = _
        rw [hfile, hw.good.journal, Option.map_map]
        congr 1
        funext log
        simp
    ordered := by rwa [hzone]
    apex := by
      rw [hzone]
      exact ⟨_, hsoa, rfl⟩
    serial := by
      rw [hzone, zoneSerial, hsoa, lastSerial_snoc]
      rfl
    cur_eq := hdiff.symm
    fresh := fun _ => rfl
    ver_ordered := by
      rwa [hzone]
    ver_view := rfl
    ver_soa := rfl
    journal := hj
    shape := Shape.nil
    proper := fun t ht => absurd ht not_mem_nil }

theorem ixfrCommit_spec (htrans : ∀ type, TransCmp (env.ops.compare type)) {d : Delta}
    (hold : serialOf d.old = lastSerial s0.requestSerial ds) :
    Triple (On Timely (fun s => Work env s0 ds d.tuples s ∧ s.ctl = c)) (ixfrCommit env)
      (fun _ => On Timely (fun s => Working env s0 (ds ++ [d]) [] [] s ∧ s.ctl = c))
      (Err Orderly (fun s => Good env s0 ds s ∧ s.ctl = c)) := by
  refine (ixfrApply_spec htrans).bind (fun _ => context_bind (fun s hs => ?_))
  obtain ⟨hw, hver, hc⟩ := hs
  obtain ⟨v, hv⟩ := isSome_iff_exists.1 hver
  have hsome := hw.journal_isSome
  have hjournal := hw.journal
  rw [hv, map_some] at hjournal
  refine Triple.bind (R := fun _ => On Timely (fun t => t = { s with
    journalfile := s.journalfile.map (fun log => log ++ [d.txn])
    journal := s0.journalfile.map (fun _ => none) })) ?_ (fun _ => update_spec ?_)
  · refine runIf_spec (fun hj => ?_) (fun w hj hx => ?_)
    · rw [hj] at hsome
      obtain ⟨log, hlog⟩ := isSome_iff_exists.1 hsome.symm
      rw [hlog, map_some] at hjournal
      have hx : s.journal.join.getD [] = d.tuples := by
        rw [hjournal]
        rfl
      refine context_bind (fun t ht => ?_)
      obtain rfl := ht.symm
      refine (insist_spec (fun _ _ => .inl ?_)).bind (fun _ => ?_)
      · rw [hjournal]
        rfl
      rw [hx]
      refine (check_spec (fun t e ht he => ⟨?_, ?_⟩)).bind (fun _ => ?_)
      · rintro rfl
        unfold commitCheck at he
        split at he
        · cases he
        split at he
        · cases he
        split at he <;> cases he
      · rw [ht]
        exact ⟨hw.good, hc⟩
      refine Triple.bind nextFault_spec (fun f => ?_)
      cases f with
      | none =>
        refine update_spec ?_
        rintro t ⟨⟨rfl, -⟩, -⟩
        rw [hlog]
        rfl
      | some f =>
        refine Triple.of_pre (fun w hy => hy.1.2 f rfl) (fun hlate => ?_)
        refine Triple.bind (update_spec (Q := fun t => t = s) ?_) (fun _ => fail_spec (orderly_result _) ?_)
        · rintro t ⟨⟨rfl, -⟩, -⟩
          rw [hlate, if_neg Bool.false_ne_true]
        · rintro t rfl
          exact ⟨hw.good, hc⟩
    · refine hx.mono ?_
      rintro t rfl
      rw [hj] at hsome
      have hlog : s0.journalfile = none := isSome_eq_false_iff.1 hsome.symm |> isNone_iff_eq_none.1
      have hfile := hw.good.journal
      rw [hlog, map_none] at hfile hjournal ⊢
      cases t with
      | mk =>
        cases hfile
        cases hjournal
        rfl
  · rintro t rfl
    exact ⟨hw.committed hver hold rfl rfl, hc⟩

theorem ixfrPutdata_spec (htrans : ∀ type, TransCmp (env.ops.compare type)) {op : DiffOp} {r : Rr}
    (hshape : Shape (cur ++ [r.tuple op])) (hproper : Proper env (r.tuple op)) :
    Triple (On Timely (fun s => Work env s0 ds cur s ∧ s.ctl = c)) (ixfrPutdata env op r)
      (fun _ => On Timely (fun s => Work env s0 ds (cur ++ [r.tuple op]) s ∧ s.ctl = c))
      (Err Orderly (fun s => Good env s0 ds s ∧ s.ctl = c)) := by
  have hgood : ∀ s, Work env s0 ds cur s ∧ s.ctl = c → Good env s0 ds s ∧ s.ctl = c := by
    rintro s ⟨⟨applied, hw⟩, hc⟩
    exact ⟨hw.good, hc⟩
  refine Triple.bind (R := fun _ => On Timely (fun s => Work env s0 ds cur s ∧ s.ctl = c)) ?_ (fun _ => ?_)
  · exact runIf_spec (fun _ => call_spec orderly_result hgood) (fun w _ hw => hw)
  refine (call_spec orderly_result hgood).bind (fun _ => ?_)
  refine Triple.bind (update_spec (Q := fun s => Work env s0 ds (cur ++ [r.tuple op]) s ∧ s.ctl = c) ?_) (fun _ => ?_)
  · rintro s ⟨⟨applied, hw⟩, hc⟩
    refine ⟨⟨applied, ⟨hw.good.commits, hw.good.journal⟩, hw.ordered, hw.apex, hw.serial, ?_, hw.fresh, hw.ver_ordered,
      hw.ver_view, hw.ver_soa, hw.journal, hshape, fun t ht => ?_⟩, hc⟩
    · rw [hw.cur_eq, append_assoc]
    · obtain ht | ht := mem_append.1 ht
      · exact hw.proper t ht
      · rw [mem_singleton.1 ht]
        exact hproper
  refine context_bind (fun s hs => ?_)
  refine runIf_spec (fun _ => ?_) (fun w _ hw => hw.mono (by rintro t rfl; exact hs))
  refine ((ixfrApply_spec htrans).conseq (fun w hw => hw.mono (by rintro t rfl; exact hs)) (fun _ w hw => hw.mono ?_)
    (fun _ _ => id))
  rintro t ⟨hw, -, hc⟩
  exact ⟨⟨_, hw⟩, hc⟩

end working

end Bind9.Xfrin
