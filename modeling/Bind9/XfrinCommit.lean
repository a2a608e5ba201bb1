import Bind9.XfrinDelta

/-! # Every stream of records

What an incremental transfer has committed after any number of records, whatever they are and whatever goes wrong on the
way: some deltas of the stream, one after the other from its second record on, each of them starting from the serial that
the zone has then.

`xfr_rr` does not look at everything that matters for this.  `StepOk` is what it takes for granted: the class of the
records, the owner and the length of SOA records, and that the record that ends the transfer follows a delta to the serial
of the first one. -/

namespace Bind9.Xfrin

open List
open Option hiding mem_map

open Diff ZoneDb Journal Serial Std Hoare

/-! ### The transfer before the first delta -/

/-- A context for which `xfrin_send_request` has asked for the changes since the serial of the zone. -/
structure Ready (env : Env) (s : Ctx) : Prop where
  state : s.state = .initialsoa
  reqtype : s.reqtype = .ixfr
  db : s.db = .zone
  ver : s.ver = none
  diff : s.diff = []
  journal : s.journal = none
  ordered : Ordered env.ops s.zone
  apex : ∃ x, s.zone.find (soaKey env.origin) = some x ∧ x.rdata.1.length = 1
  serial : zoneSerial env.origin s.zone = some s.requestSerial

/-- Nothing is committed before the first delta. -/
theorem good_start {env : Env} {s0 s : Ctx} (hzone : s.zone = s0.zone) (hfile : s.journalfile = s0.journalfile) :
    Good env s0 [] s := by
  refine ⟨?_, ?_⟩
  · rw [hzone]
    exact .nil
  · rw [hfile]
    cases s0.journalfile with
    | none => rfl
    | some log => simp

theorem Ready.working {env : Env} {s0 s : Ctx} (h : Ready env s0) (hzone : s.zone = s0.zone)
    (hfile : s.journalfile = s0.journalfile) (hver : s.ver = none) (hdiff : s.diff = [])
    (hj : s.journal = s0.journalfile.map (fun _ => none)) : Work env s0 [] [] s := by
  refine ⟨[], ?_⟩
  have hbase : s.ver.getD s.zone = s0.zone := by
    rw [hver, hzone]
    rfl
  exact {
    good := good_start hzone hfile
    ordered := by
      rw [hzone]
      exact h.ordered
    apex := by
      rw [hzone]
      exact h.apex
    serial := by
      rw [hzone]
      exact h.serial
    cur_eq := by
      rw [hdiff]
      rfl
    fresh := fun _ => rfl
    ver_ordered := by
      rw [hbase]
      exact h.ordered
    ver_view := by
      rw [hbase, hzone]
      rfl
    ver_soa := by
      rw [hbase, hzone]
      rfl
    journal := by
      rw [hj, hver]
      rfl
    shape := Shape.nil
    proper := fun t ht => absurd ht not_mem_nil }

/-! ### A whole zone instead of changes -/

/-- A database is being loaded, and the zone is as it was. -/
structure Loading (s0 : Ctx) (st : State) (s : Ctx) : Prop where
  zone : s.zone = s0.zone
  file : s.journalfile = s0.journalfile
  state : s.state = st
  db : s.db.loading.isSome = true
  diff : ∀ t ∈ s.diff, t.op = .add

/-- What is left of it when the load fails. -/
def Untouched (s0 : Ctx) (st : State) (s : Ctx) : Prop := s.zone = s0.zone ∧ s.journalfile = s0.journalfile ∧ s.state = st

section loading

variable {env : Env} {s0 : Ctx} {st : State} {T : Fault → Prop}

theorem Loading.untouched {s : Ctx} (h : Loading s0 st s) : Untouched s0 st s := ⟨h.zone, h.file, h.state⟩

theorem loadGroup_ne_assertion {z : Zone} {t : DiffTuple} {ts : Tuples} (ht : t.op = .add) :
    loadGroup env z (t :: ts) ≠ .error .assertion := by
  rw [loadGroup, require_true (by rw [ht]; rfl), ok_then]
  split
  · exact fun h => by cases h
  split
  · exact fun h => by cases h
  split
  · exact fun h => by cases h
  cases hs : fromrdataset env.toEnv t.type ((t :: ts).map DiffTuple.rdata) with
  | error e =>
    intro h
    cases h
    exact fromrdataset_ne_assertion _ _ hs
  | ok slab =>
    simp only [ok_then]
    split
    · exact fun h => by cases h
    · exact fun h => by cases h

theorem axfrApply_spec : Triple (On T (Loading s0 st)) (axfrApply env) (fun _ => On T (Loading s0 st))
    (Err Orderly (Untouched s0 st)) := by
  refine context_bind (fun s hs => ?_)
  have huntouched : ∀ t, t = s → Untouched s0 st t := by
    rintro t rfl
    exact hs.untouched
  refine (insist_spec (fun _ _ => .inl hs.db)).bind (fun _ => ?_)
  refine (call_spec orderly_result huntouched).bind (fun _ => ?_)
  refine (check_spec (fun t e ht he => ⟨?_, huntouched t ht⟩)).bind (fun z => update_spec ?_)
  · rintro rfl
    refine foldlM_ne_assertion (f := loadGroup env) (fun y t ts ht => ?_) he
    exact loadGroup_ne_assertion (hs.diff t ht)
  · rintro t ⟨rfl, -⟩
    exact ⟨hs.zone, hs.file, hs.state, rfl, fun t ht => absurd ht not_mem_nil⟩

theorem axfrPutdata_spec {r : Rr} : Triple (On T (Loading s0 st)) (axfrPutdata env r) (fun _ => On T (Loading s0 st))
    (Err Orderly (Untouched s0 st)) := by
  refine (call_spec orderly_result (fun s => Loading.untouched)).bind (fun _ => ?_)
  refine (call_spec orderly_result (fun s => Loading.untouched)).bind (fun _ => ?_)
  refine Triple.bind (update_spec (Q := Loading s0 st) ?_) (fun _ => context_bind (fun s hs => ?_))
  · intro s hs
    refine ⟨hs.zone, hs.file, hs.state, hs.db, fun t ht => ?_⟩
    obtain ht | ht := mem_append.1 ht
    · exact hs.diff t ht
    · rw [mem_singleton.1 ht]
      rfl
  · have hpre : ∀ w, On T (fun t => t = s) w → On T (Loading s0 st) w := by
      intro w hw
      refine hw.mono ?_
      rintro t rfl
      exact hs
    exact runIf_spec (fun _ => axfrApply_spec.pre hpre) (fun w _ hw => hpre w hw)

theorem rrAxfr_spec {r : Rr} : Triple (On T (Loading s0 .axfr)) (rrAxfr env r)
    (fun _ => On T (fun s => Loading s0 .axfr s ∨ Loading s0 .axfrEnd s)) (Err Orderly (Untouched s0 .axfr)) := by
  refine Triple.ite (fun _ => Triple.pure (fun w hw => hw.mono (fun s => .inl))) (fun _ => ?_)
  refine axfrPutdata_spec.bind (fun _ => runIf_spec (fun _ => ?_) (fun w _ hw => hw.mono (fun s => .inl)))
  refine Triple.bind (R := fun _ => On T (Loading s0 .axfr)) ?_ (fun _ => update_spec ?_)
  · exact axfrApply_spec.bind (fun _ => call_spec orderly_result (fun s => Loading.untouched))
  · intro s hs
    exact .inr ⟨hs.zone, hs.file, rfl, hs.db, hs.diff⟩

theorem axfrInit_spec : Triple (On T (fun s => Untouched s0 st s ∧ s.diff = [])) axfrInit
    (fun _ => On T (Loading s0 st)) (Err Orderly (Untouched s0 st)) := by
  refine Triple.bind (update_spec (Q := fun s => Untouched s0 st s ∧ s.diff = []) (fun s hs => hs)) (fun _ => ?_)
  refine (call_spec orderly_result (fun s hs => hs.1)).bind (fun _ => ?_)
  refine Triple.bind (update_spec (Q := Loading s0 st) ?_) (fun _ => call_spec orderly_result (fun s => Loading.untouched))
  rintro s ⟨⟨hz, hf, hst⟩, hd⟩
  exact ⟨hz, hf, hst, rfl, fun t ht => by rw [hd] at ht; cases ht⟩

end loading

/-! ### One record -/

/-- What `xfr_rr` takes for granted about a record: the class of the zone, a length of 16 bits, SOA records at the origin
that have a serial, and at the end of the transfer a delta to the serial of the first record. -/
structure StepOk (env : Env) (s : Ctx) (r : Rr) : Prop where
  rdclass : r.rdclass = env.rdclass
  length : r.rdata.length < 65536
  soa : r.type = soa → 20 ≤ r.rdata.length ∧ r.name.lower = env.origin.lower
  final : s.state = .ixfrAdd → r.type = Diff.soa → serialOf r = s.endSerial → s.currentSerial = s.endSerial

/-- Where the transfer is after the records `fed`. -/
inductive Phase (env : Env) (s0 : Ctx) : List Rr → Ctx → Prop
  | initial : Phase env s0 [] s0
  | first (r : Rr) (k : Bool) :
      Phase env s0 [r] { s0 with endSerial := serialOf r, checkid := k, state := .firstdata }
  | del {s : Ctx} (r : Rr) (ds : List Delta) (old : Rr) (dels : List Rr) (hold : old.type = soa)
      (hdels : ∀ x ∈ dels, x.type ≠ soa) (hserial : serialOf old = lastSerial s0.requestSerial ds)
      (hwork : Work env s0 ds ((old :: dels).map (Rr.tuple .del)) s) (hstate : s.state = .ixfrDel)
      (hend : s.endSerial = serialOf r) : Phase env s0 (r :: (ds.flatMap Delta.rrs ++ old :: dels)) s
  | add {s : Ctx} (r : Rr) (ds : List Delta) (d : Delta) (hserial : serialOf d.old = lastSerial s0.requestSerial ds)
      (hwork : Work env s0 ds d.tuples s) (hstate : s.state = .ixfrAdd) (hend : s.endSerial = serialOf r)
      (hcurrent : s.currentSerial = serialOf d.new) : Phase env s0 (r :: (ds.flatMap Delta.rrs ++ d.rrs)) s
  | done {s : Ctx} (r : Rr) (ds : List Delta) (last : Rr) (hgood : Good env s0 ds s) (hstate : s.state = .ixfrEnd)
      (hserial : zoneSerial env.origin s.zone = some (serialOf r)) :
      Phase env s0 (r :: (ds.flatMap Delta.rrs ++ [last])) s
  | load {s : Ctx} (fed : List Rr) (hload : Loading s0 .axfr s ∨ Loading s0 .axfrEnd s) : Phase env s0 fed s

/-- What a transfer has done: some deltas of the stream are committed, and if it is at its end, the zone has the serial of
the first record. -/
def Outcome (env : Env) (s0 : Ctx) (stream : List Rr) (s : Ctx) : Prop :=
  ∃ ds, Good env s0 ds s ∧ ds.flatMap Delta.rrs <+: stream.tail ∧
    (s.state = .ixfrEnd → ∃ r rest, stream = r :: rest ∧ zoneSerial env.origin s.zone = some (serialOf r))

section phase

variable {env : Env} {s0 : Ctx} {stream : List Rr}

theorem prefix_tail {r : Rr} {a b : List Rr} (h : r :: (a ++ b) <+: stream) : a <+: stream.tail := by
  obtain ⟨c, rfl⟩ := h
  rw [cons_append, tail_cons, append_assoc]
  exact prefix_append _ _

variable {ds : List Delta}

/-- Away from the end, what is committed is all there is to say. -/
theorem Good.outcome {s : Ctx} (h : Good env s0 ds s) (hp : ds.flatMap Delta.rrs <+: stream.tail)
    (hs : s.state ≠ .ixfrEnd) : Outcome env s0 stream s := ⟨ds, h, hp, fun he => absurd he hs⟩

theorem Untouched.outcome {s : Ctx} {st : State} (h : Untouched s0 st s) (hs : st ≠ .ixfrEnd) : Outcome env s0 stream s :=
  (good_start h.1 h.2.1).outcome nil_prefix (by rw [h.2.2]; exact hs)

theorem Work.good {cur : Tuples} {s : Ctx} (h : Work env s0 ds cur s) : Good env s0 ds s := by
  obtain ⟨applied, h⟩ := h
  exact h.good

theorem Work.steered {cur : Tuples} {s t : Ctx} (h : Work env s0 ds cur s) (hz : t.zone = s.zone)
    (hv : t.ver = s.ver) (hd : t.diff = s.diff) (hf : t.journalfile = s.journalfile) (hj : t.journal = s.journal) :
    Work env s0 ds cur t := by
  obtain ⟨applied, h⟩ := h
  refine ⟨applied, ⟨?_, ?_⟩, ?_, ?_, ?_, ?_, ?_, ?_, ?_, ?_, ?_, h.shape, h.proper⟩
  · rw [hz]
    exact h.good.commits
  · rw [hf]
    exact h.good.journal
  · rw [hz]
    exact h.ordered
  · rw [hz]
    exact h.apex
  · rw [hz]
    exact h.serial
  · rw [hd]
    exact h.cur_eq
  · rw [hv]
    exact h.fresh
  · rw [hv, hz]
    exact h.ver_ordered
  · rw [hv, hz]
    exact h.ver_view
  · rw [hv, hz]
    exact h.ver_soa
  · rw [hj, hv]
    exact h.journal

theorem Phase.outcome (hready : Ready env s0) {fed : List Rr} {s : Ctx} (h : Phase env s0 fed s) (hp : fed <+: stream) :
    Outcome env s0 stream s := by
  cases h with
  | initial =>
    refine (good_start rfl rfl).outcome nil_prefix ?_
    rw [hready.state]
    exact fun h => by cases h
  | first r k =>
    refine Untouched.outcome ⟨rfl, rfl, rfl⟩ ?_
    exact fun h => by cases h
  | del r ds old dels _ _ _ hwork hstate _ | add r ds d _ hwork hstate _ _ =>
    refine hwork.good.outcome (prefix_tail hp) ?_
    rw [hstate]
    exact fun h => by cases h
  | done r ds last hgood _ hserial =>
    refine ⟨ds, hgood, prefix_tail hp, fun _ => ?_⟩
    obtain ⟨c, rfl⟩ := hp
    exact ⟨r, _, rfl, hserial⟩
  | load _ hload =>
    obtain hload | hload := hload
    · exact hload.untouched.outcome (fun h => by cases h)
    · exact hload.untouched.outcome (fun h => by cases h)

theorem soaGetserial_eq {r : Rr} (h : 20 ≤ r.rdata.length) : soaGetserial r.rdata = .ok (serialOf r) := by
  rw [soaGetserial, require_true (decide_eq_true h), ok_then]
  rfl

theorem StepOk.proper {s : Ctx} {r : Rr} (h : StepOk env s r) (op : DiffOp) : Proper env (r.tuple op) where
  rdclass := h.rdclass
  length := h.length
  soa ht := by
    obtain ⟨hlen, hname⟩ := h.soa ht
    refine ⟨hlen, ?_⟩
    have htype : r.type = Diff.soa := ht
    show (⟨r.name.lower, r.type, rdataCovers r.type r.rdata⟩ : Key) = _
    rw [hname, htype]
    rfl

theorem check_serial {T : Fault → Prop} {P : Ctx → Prop} {F : Stop → World → Prop} {r : Rr} (h : 20 ≤ r.rdata.length) :
    Triple (On T P) (check (soaGetserial r.rdata)) (fun n => On T (fun s => P s ∧ n = serialOf r)) F := by
  rw [soaGetserial_eq h]
  exact Triple.pure (fun w hw => hw.mono (fun s hs => ⟨hs, rfl⟩))

/-! ### The states of `xfr_rr` -/

variable {r : Rr} {s : Ctx}

/-- The first record: the serial that the transfer shall lead to. -/
theorem rrInitialsoa_phase (hready : Ready env s0) (hok : StepOk env s0 r) :
    Triple (On Timely (fun t => t = s0)) (rrInitialsoa env s0 r) (fun _ => On Timely (Phase env s0 [r]))
      (Err Orderly (Outcome env s0 stream)) := by
  have hout : ∀ t : Ctx, t.zone = s0.zone → t.journalfile = s0.journalfile → t.state = .initialsoa →
      Outcome env s0 stream t := fun t hz hf hs => Untouched.outcome ⟨hz, hf, hs⟩ (fun h => by cases h)
  refine Triple.ite (fun _ => fail_spec (orderly_result _) ?_) (fun htype => ?_)
  · rintro t rfl
    exact hout t rfl rfl hready.state
  rw [ne_eq, not_not] at htype
  refine (check_serial (hok.soa htype).1).bind (fun n => ?_)
  refine Triple.bind (update_spec (Q := fun t => t = { s0 with endSerial := serialOf r }) ?_) (fun _ => ?_)
  · rintro t ⟨rfl, rfl⟩
    rfl
  refine Triple.ite (fun _ => fail_spec (orderly_result _) ?_) (fun _ => ?_)
  · rintro t rfl
    exact hout _ rfl rfl hready.state
  refine Triple.bind (update_spec (Q := fun t => ∃ k, t = { s0 with endSerial := serialOf r, checkid := k }) ?_)
    (fun _ => update_spec ?_)
  · rintro t rfl
    exact ⟨_, rfl⟩
  · rintro t ⟨k, rfl⟩
    exact .first r k

variable {first : Rr}

theorem rrDelsoa_phase (htrans : ∀ type, TransCmp (env.ops.compare type)) (hok : StepOk env s r)
    (htype : r.type = soa) (hserial : serialOf r = lastSerial s0.requestSerial ds)
    (hp : ds.flatMap Delta.rrs <+: stream.tail) :
    Triple (On Timely (fun t => Work env s0 ds [] t ∧ t.state = .ixfrDelsoa ∧ t.endSerial = serialOf first))
      (rrDelsoa env r) (fun _ => On Timely (Phase env s0 (first :: (ds.flatMap Delta.rrs ++ [r]))))
      (Err Orderly (Outcome env s0 stream)) := by
  rintro w ⟨⟨hwork, hstate, hend⟩, hfaults⟩
  refine (?_ : Triple (On Timely (fun t => Work env s0 ds [] t ∧ t.ctl = w.xfr.ctl)) _ _ _) w ⟨⟨hwork, rfl⟩, hfaults⟩
  refine (insist_spec (fun _ _ => .inl (beq_iff_eq.2 htype))).bind (fun _ => ?_)
  refine Triple.bind ((ixfrPutdata_spec htrans (Shape.first rfl) (hok.proper .del)).conseq (fun _ => id) (fun _ _ => id) ?_)
    (fun _ => update_spec ?_)
  · rintro e v ⟨he, hgood, hc⟩
    refine ⟨he, hgood.outcome hp ?_⟩
    rw [show v.xfr.state = w.xfr.state from congrArg Prod.fst hc, hstate]
    exact fun h => by cases h
  · rintro t ⟨hw, hc⟩
    have hends : t.endSerial = w.xfr.endSerial := congrArg (fun x => x.2.1) hc
    exact .del first ds r [] htype (fun x hx => absurd hx not_mem_nil) hserial (hw.steered rfl rfl rfl rfl rfl) rfl
      (hends.trans hend)

/-- The second record: it tells an incremental response from a whole zone. -/
theorem rrFirstdata_phase (htrans : ∀ type, TransCmp (env.ops.compare type)) (hready : Ready env s0) {k : Bool}
    (hs : s = { s0 with endSerial := serialOf first, checkid := k, state := .firstdata }) (hok : StepOk env s r) :
    Triple (On Timely (fun t => t = s)) (rrFirstdata env s r) (fun _ => On Timely (Phase env s0 [first, r]))
      (Err Orderly (Outcome env s0 stream)) := by
  have hsoa : isRequestSoa s r = .ok (decide (r.type = soa ∧ s0.requestSerial = serialOf r)) := by
    have hreq : s.reqtype = .ixfr := by
      rw [hs]
      exact hready.reqtype
    unfold isRequestSoa
    split
    next h =>
      rw [soaGetserial_eq (hok.soa h.2).1, ok_then, hs]
      simp [h.2, pure, Except.pure, BEq.beq]
    next h =>
      have htype : ¬r.type = soa := fun he => h ⟨hreq, he⟩
      simp [htype]
  rw [rrFirstdata, hsoa]
  refine Triple.bind (R := fun b => On Timely (fun t => t = s ∧ b = decide (r.type = soa ∧ s0.requestSerial = serialOf r)))
    (Triple.pure (fun w hw => hw.mono (fun t ht => ⟨ht, rfl⟩))) (fun b => ?_)
  have hout : ∀ t : Ctx, t.zone = s0.zone → t.journalfile = s0.journalfile → t.state = .firstdata →
      Outcome env s0 stream t := fun t hz hf hs => Untouched.outcome ⟨hz, hf, hs⟩ (fun h => by cases h)
  refine Triple.ite (fun hb => ?_) (fun _ => ?_)
  · refine Triple.of_pre (fun w hw => hw.1.2) (fun heq => ?_)
    rw [hb] at heq
    obtain ⟨htype, hserial⟩ := of_decide_eq_true heq.symm
    -- `ixfr_init` opens the journal
    refine Triple.bind (R := fun _ => On Timely (fun t => t.zone = s0.zone ∧ t.journalfile = s0.journalfile ∧ t.ver = none ∧
      t.diff = [] ∧ t.endSerial = serialOf first ∧ t.journal = s0.journalfile.map (fun _ => none))) ?_ (fun _ => ?_)
    · refine context_bind (fun t ht => ?_)
      obtain ⟨rfl, -⟩ := ht
      subst hs
      refine Triple.ite (fun h => absurd hready.reqtype h) (fun _ => ?_)
      refine Triple.bind (update_spec (Q := fun t => t = { s0 with
        endSerial := serialOf first, checkid := k, state := .firstdata, isIxfr := true }) ?_) (fun _ => ?_)
      · rintro t rfl
        rfl
      refine (insist_spec (fun _ _ => .inl (decide_eq_true ?_))).bind (fun _ => ?_)
      · rw [hready.db]
        exact fun h => by cases h
      refine Triple.bind (update_spec (Q := fun t => t = { s0 with
        endSerial := serialOf first, checkid := k, state := .firstdata, isIxfr := true, difflen := 0 }) ?_) (fun _ => ?_)
      · rintro t rfl
        rfl
      refine runIf_spec (fun hj => ?_) (fun w hj hw => hw.mono ?_)
      · obtain ⟨log, hlog⟩ := isSome_iff_exists.1 hj
        refine (call_spec orderly_result ?_).bind (fun _ => update_spec ?_)
        · rintro t rfl
          exact hout _ rfl rfl rfl
        · rintro t rfl
          refine ⟨rfl, rfl, hready.ver, hready.diff, rfl, ?_⟩
          rw [show s0.journalfile = some log from hlog]
          rfl
      · rintro t rfl
        refine ⟨rfl, rfl, hready.ver, hready.diff, rfl, ?_⟩
        have hlog : s0.journalfile = none := isSome_eq_false_iff.1 hj |> isNone_iff_eq_none.1
        rw [hlog]
        exact hready.journal
    · have hnone : ([] : List Delta).flatMap Delta.rrs <+: stream.tail := nil_prefix
      refine Triple.bind (update_spec (Q := fun t => Work env s0 [] [] t ∧ t.state = .ixfrDelsoa ∧
        t.endSerial = serialOf first) ?_) (fun _ => rrDelsoa_phase htrans hok htype ?_ hnone)
      · rintro t ⟨hz, hf, hv, hd, he, hj⟩
        exact ⟨hready.working hz hf hv hd hj, rfl, he⟩
      · rw [lastSerial_nil, hserial]
  · refine Triple.bind (R := fun _ => On Timely (Loading s0 .firstdata)) (axfrInit_spec.conseq ?_ (fun _ _ => id) ?_) (fun _ => ?_)
    · rintro w ⟨⟨hw, -⟩, hfaults⟩
      rw [hs] at hw
      refine ⟨⟨⟨?_, ?_, ?_⟩, ?_⟩, hfaults⟩
      · rw [hw]
      · rw [hw]
      · rw [hw]
      · rw [hw]
        exact hready.diff
    · rintro e w ⟨he, hw⟩
      exact ⟨he, hw.outcome (fun h => by cases h)⟩
    refine Triple.bind (update_spec (Q := Loading s0 .axfr) ?_) (fun _ => ?_)
    · intro t ht
      exact ⟨ht.zone, ht.file, rfl, ht.db, ht.diff⟩
    · refine rrAxfr_spec.conseq (fun _ => id) (fun _ w hw => hw.mono (fun t ht => .load _ ht)) ?_
      rintro e w ⟨he, hw⟩
      exact ⟨he, hw.outcome (fun h => by cases h)⟩

/-- A failure that is not at the end. -/
theorem err_outcome {c : State × UInt32 × UInt32 × UInt32 × Reqtype × Database} {e : Stop} {w : World}
    (hp : ds.flatMap Delta.rrs <+: stream.tail) (hc : c.1 ≠ .ixfrEnd)
    (h : Err Orderly (fun s => Good env s0 ds s ∧ s.ctl = c) e w) : Err Orderly (Outcome env s0 stream) e w := by
  obtain ⟨he, hgood, hctl⟩ := h
  refine ⟨he, hgood.outcome hp ?_⟩
  rw [show w.xfr.state = c.1 from congrArg Prod.fst hctl]
  exact hc

/-- A deletion, or the SOA record that ends the deletions. -/
theorem rrDel_phase (htrans : ∀ type, TransCmp (env.ops.compare type)) {first old : Rr} {dels : List Rr}
    (hold : old.type = soa) (hdels : ∀ x ∈ dels, x.type ≠ soa) (hserial : serialOf old = lastSerial s0.requestSerial ds)
    (hwork : Work env s0 ds ((old :: dels).map (Rr.tuple .del)) s) (hstate : s.state = .ixfrDel)
    (hend : s.endSerial = serialOf first) (hok : StepOk env s r) (hp : ds.flatMap Delta.rrs <+: stream.tail) :
    Triple (On Timely (fun t => t = s)) (rrDel env r)
      (fun _ => On Timely (Phase env s0 (first :: (ds.flatMap Delta.rrs ++ (old :: dels ++ [r])))))
      (Err Orderly (Outcome env s0 stream)) := by
  obtain ⟨applied, hw⟩ := hwork
  refine Triple.ite (fun htype => ?_) (fun htype => ?_)
  · refine (check_serial (hok.soa htype).1).bind (fun n => ?_)
    let d : Delta := ⟨old, dels, r, [], hold, hdels, htype, fun x hx => absurd hx not_mem_nil⟩
    refine Triple.bind (update_spec (Q := fun t => Work env s0 ds ((old :: dels).map (Rr.tuple .del)) t ∧
      t.ctl = (.ixfrAddsoa, serialOf first, serialOf r, s.requestSerial, s.reqtype, s.db)) ?_) (fun _ => ?_)
    · rintro t ⟨rfl, rfl⟩
      refine ⟨Work.steered ⟨applied, hw⟩ rfl rfl rfl rfl rfl, ?_⟩
      rw [← hend]
      rfl
    refine (insist_spec (fun _ _ => .inl (beq_iff_eq.2 htype))).bind (fun _ => ?_)
    have hshape : Shape ((old :: dels).map (Rr.tuple .del) ++ [r.tuple .add]) := by
      refine Shape.second hold rfl (fun x hx => ?_) rfl hw.shape
      obtain ⟨y, hy, rfl⟩ := mem_map.1 hx
      exact hdels y hy
    refine Triple.bind ((ixfrPutdata_spec htrans hshape (hok.proper .add)).conseq (fun _ => id) (fun _ _ => id)
      (fun e v => err_outcome hp ?_)) (fun _ => update_spec ?_)
    · exact fun h => by cases h
    · rintro t ⟨hwork, hc⟩
      have hends : t.endSerial = serialOf first := congrArg (fun x => x.2.1) hc
      have hcurrent : t.currentSerial = serialOf r := congrArg (fun x => x.2.2.1) hc
      exact .add first ds d hserial (hwork.steered rfl rfl rfl rfl rfl) rfl hends hcurrent
  · have hshape : Shape ((old :: dels).map (Rr.tuple .del) ++ [r.tuple .del]) := hw.shape.plain htype
    refine (ixfrPutdata_spec (c := s.ctl) htrans hshape (hok.proper .del)).conseq ?_ (fun _ v hv => hv.mono ?_)
      (fun e v => err_outcome hp ?_)
    · rintro v ⟨rfl, hfaults⟩
      exact ⟨⟨⟨applied, hw⟩, rfl⟩, hfaults⟩
    · rintro t ⟨hwork, hc⟩
      have hends : t.endSerial = s.endSerial := congrArg (fun x => x.2.1) hc
      have hstates : t.state = s.state := congrArg Prod.fst hc
      have hall : ∀ x ∈ dels ++ [r], x.type ≠ soa := by
        intro x hx
        obtain hx | hx := mem_append.1 hx
        · exact hdels x hx
        · rw [mem_singleton.1 hx]
          exact htype
      refine .del first ds old (dels ++ [r]) hold hall hserial ?_ (hstates.trans hstate) (hends.trans hend)
      rw [← cons_append, map_append]
      exact hwork
    · show s.state ≠ .ixfrEnd
      rw [hstate]
      exact fun h => by cases h

/-- An addition, or the SOA record behind the last one. -/
theorem rrAdd_phase (htrans : ∀ type, TransCmp (env.ops.compare type)) {d : Delta}
    (hserial : serialOf d.old = lastSerial s0.requestSerial ds) (hwork : Work env s0 ds d.tuples s)
    (hstate : s.state = .ixfrAdd) (hend : s.endSerial = serialOf first) (hcurrent : s.currentSerial = serialOf d.new)
    (hok : StepOk env s r) (hp : (ds ++ [d]).flatMap Delta.rrs <+: stream.tail) :
    Triple (On Timely (fun t => t = s)) (rrAdd env s r)
      (fun _ => On Timely (Phase env s0 (first :: (ds.flatMap Delta.rrs ++ (d.rrs ++ [r])))))
      (Err Orderly (Outcome env s0 stream)) := by
  have hflat : (ds ++ [d]).flatMap Delta.rrs = ds.flatMap Delta.rrs ++ d.rrs := by simp
  have hp' : ds.flatMap Delta.rrs <+: stream.tail := by
    rw [hflat] at hp
    exact (prefix_append _ _).trans hp
  have hne : s.ctl.1 ≠ .ixfrEnd := by
    show s.state ≠ .ixfrEnd
    rw [hstate]
    exact fun h => by cases h
  have hstart : ∀ v, On Timely (fun t => t = s) v → On Timely (fun t => Work env s0 ds d.tuples t ∧ t.ctl = s.ctl) v := by
    rintro v ⟨rfl, hfaults⟩
    exact ⟨⟨hwork, rfl⟩, hfaults⟩
  have hcommit := (ixfrCommit_spec (c := s.ctl) htrans hserial).conseq hstart (fun _ _ => id)
    (fun e v => err_outcome hp' hne)
  refine Triple.ite (fun htype => ?_) (fun htype => ?_)
  · refine (check_serial (hok.soa htype).1).bind (fun n => ?_)
    refine Triple.of_pre (fun w hw => hw.1.2) (fun hn => ?_)
    subst hn
    have hpre : ∀ v, On Timely (fun t => t = s ∧ serialOf r = serialOf r) v → On Timely (fun t => t = s) v :=
      fun v hv => hv.mono (fun t ht => ht.1)
    refine Triple.ite (fun hlast => ?_) (fun hlast => Triple.ite (fun _ => fail_spec (orderly_result _) ?_) (fun hnext => ?_))
    · refine (hcommit.pre hpre).bind (fun _ => update_spec ?_)
      rintro t ⟨hw, -⟩
      have hfinal : serialOf d.new = serialOf first := by
        rw [← hcurrent, ← hend]
        exact hok.final hstate htype hlast
      have hzone := hw.serial
      rw [lastSerial_snoc, hfinal] at hzone
      rw [← append_assoc, ← hflat]
      exact .done first (ds ++ [d]) r ⟨hw.good.commits, hw.good.journal⟩ rfl hzone
    · rintro t ⟨rfl, -⟩
      exact hwork.good.outcome hp' hne
    · rw [ne_eq, not_not] at hnext
      refine (hcommit.pre hpre).bind (fun _ => ?_)
      refine Triple.bind (update_spec (Q := fun t => Work env s0 (ds ++ [d]) [] t ∧ t.state = .ixfrDelsoa ∧
        t.endSerial = serialOf first) ?_) (fun _ => ?_)
      · rintro t ⟨hw, hc⟩
        have hends : t.endSerial = s.endSerial := congrArg (fun x => x.2.1) hc
        exact ⟨Work.steered ⟨_, hw⟩ rfl rfl rfl rfl rfl, rfl, hends.trans hend⟩
      · rw [← append_assoc, ← hflat]
        refine rrDelsoa_phase htrans hok htype ?_ hp
        rw [lastSerial_snoc, hnext, hcurrent]
  · refine Triple.ite (fun _ => fail_spec (orderly_result _) ?_) (fun _ => ?_)
    · rintro t rfl
      exact hwork.good.outcome hp' hne
    let d' : Delta := { d with
      adds := d.adds ++ [r]
      adds_plain := fun x hx => by
        obtain hx | hx := mem_append.1 hx
        · exact d.adds_plain x hx
        · rw [mem_singleton.1 hx]
          exact htype }
    have htuples : d'.tuples = d.tuples ++ [r.tuple .add] := by simp [Delta.tuples, d']
    have hrrs : d'.rrs = d.rrs ++ [r] := by simp [Delta.rrs, d']
    have hshape : Shape (d.tuples ++ [r.tuple .add]) := by
      obtain ⟨applied, hw⟩ := hwork
      exact hw.shape.plain htype
    refine (ixfrPutdata_spec htrans hshape (hok.proper .add)).conseq hstart (fun _ v hv => hv.mono ?_)
      (fun e v => err_outcome hp' hne)
    rintro t ⟨hw, hc⟩
    have hends : t.endSerial = s.endSerial := congrArg (fun x => x.2.1) hc
    have hcurr : t.currentSerial = s.currentSerial := congrArg (fun x => x.2.2.1) hc
    have hstates : t.state = s.state := congrArg Prod.fst hc
    rw [← hrrs]
    rw [← htuples] at hw
    exact .add first ds d' hserial hw (hstates.trans hstate) (hends.trans hend) (hcurr.trans hcurrent)

theorem xfrRr_phase (htrans : ∀ type, TransCmp (env.ops.compare type)) (hready : Ready env s0) {fed rest : List Rr}
    (hstream : stream = fed ++ r :: rest) :
    Triple (fun w => On Timely (Phase env s0 fed) w ∧ StepOk env w.xfr r) (xfrRr env r)
      (fun _ => On Timely (Phase env s0 (fed ++ [r]))) (Err Orderly (Outcome env s0 stream)) := by
  rintro w ⟨⟨hphase, hfaults⟩, hok⟩
  refine (?_ : Triple (On Timely (fun t => t = w.xfr)) _ _ _) w ⟨rfl, hfaults⟩
  have hfed : fed <+: stream := hstream ▸ prefix_append _ _
  have hout : ∀ t, t = w.xfr → Outcome env s0 stream t := by
    rintro t rfl
    exact hphase.outcome hready hfed
  refine Triple.ite (fun _ => fail_spec (orderly_result _) hout) (fun _ => context_bind ?_)
  rintro s rfl
  generalize hxfr : w.xfr = s at hphase hok hout
  clear hxfr
  cases hphase with
  | initial =>
    rw [rrSwitch, hready.state]
    exact rrInitialsoa_phase hready hok
  | first f k => exact rrFirstdata_phase htrans hready rfl hok
  | del f ds old dels hold hdels hserial hwork hstate hend =>
    rw [rrSwitch, hstate, cons_append, append_assoc]
    exact rrDel_phase htrans hold hdels hserial hwork hstate hend hok (prefix_tail hfed)
  | add f ds d hserial hwork hstate hend hcurrent =>
    have hp : (ds ++ [d]).flatMap Delta.rrs <+: stream.tail := by
      have hflat : (ds ++ [d]).flatMap Delta.rrs = ds.flatMap Delta.rrs ++ d.rrs := by simp
      rw [hflat]
      rw [← append_nil (ds.flatMap Delta.rrs ++ d.rrs)] at hfed
      exact prefix_tail hfed
    rw [rrSwitch, hstate, cons_append, append_assoc]
    exact rrAdd_phase htrans hserial hwork hstate hend hcurrent hok hp
  | done f ds last hgood hstate hserial =>
    rw [rrSwitch, hstate]
    exact fail_spec (orderly_result _) hout
  | load _ hload =>
    obtain hload | hload := hload
    · rw [rrSwitch, hload.state]
      refine rrAxfr_spec.conseq ?_ (fun _ v hv => hv.mono (fun t ht => .load _ ht)) ?_
      · rintro v ⟨rfl, hf⟩
        exact ⟨hload, hf⟩
      · rintro e v ⟨he, hv⟩
        exact ⟨he, hv.outcome (fun h => by cases h)⟩
    · rw [rrSwitch, hload.state]
      exact fail_spec (orderly_result _) hout

end phase

/-! ### A whole stream -/

/-- Whatever the stream and whatever fails: no assertion fails, whole deltas are committed from the serial of the zone on,
each with one transaction in the journal, and a transfer that ends leaves the serial of its first record. -/
theorem ixfr_commits_deltas {env : Env} (htrans : ∀ type, TransCmp (env.ops.compare type)) {s0 : Ctx} (hready : Ready env s0)
    (faults : List (Option Fault)) (hfaults : ∀ f, some f ∈ faults → f.late = false) (stream : List Rr)
    (hguard : Guarded env (StepOk env) stream ⟨s0, faults⟩) :
    (∀ w, feed env stream ⟨s0, faults⟩ = .ok () w → Outcome env s0 stream w.xfr) ∧
    ∀ e w, feed env stream ⟨s0, faults⟩ = .error e w → e ≠ .assertion ∧ Outcome env s0 stream w.xfr := by
  have hrun := feed_guarded (T := Timely) (C := StepOk env) (I := Phase env s0) (F := Err Orderly (Outcome env s0 stream))
    (fun fed r rest hs => xfrRr_phase htrans hready hs) stream [] rfl ⟨s0, faults⟩ ⟨⟨.initial, hfaults⟩, hguard⟩
  refine ⟨fun w hw => ?_, fun e w hw => hrun.2 e w hw⟩
  exact (hrun.1 () w hw).1.outcome hready (prefix_refl stream)

/-! ### A transfer of the root -/

/-- A SOA record of the root. -/
def soaRr (serial : ℕ) : Rr := ⟨⟨[[]]⟩, 0, 1, soa, 0 :: 0 :: (uint32Bytes serial ++ List.replicate 16 0)⟩

/-- The root zone, with rdata compared as bytes. -/
def rootEnv : Env where
  ops := ⟨fun _ a b => compare a b, fun type => type == soa⟩
  qsort := .insertionSort
  rdclass := 1
  origin := ⟨[[]]⟩
  forced := false
  ismeta _ := false

/-- A transfer of the root zone that has asked for the changes since the serial 1. -/
def rootCtx : Ctx where
  reqtype := .ixfr
  checkid := true
  db := .zone
  zone := [(soaKey ⟨[[]]⟩, ⟨0, [(soaRr 1).rdata], cons_ne_nil _ _⟩)]
  ver := none
  diff := []
  difflen := 0
  state := .initialsoa
  endSerial := 0
  isIxfr := false
  requestSerial := 1
  currentSerial := 1
  journalfile := some []
  journal := none

theorem rootEnv_trans (type : UInt16) : TransCmp (rootEnv.ops.compare type) :=
  inferInstanceAs (TransCmp (compare : Rdata → Rdata → Ordering))

theorem rootCtx_ready : Ready rootEnv rootCtx where
  state := rfl
  reqtype := rfl
  db := rfl
  ver := rfl
  diff := rfl
  journal := rfl
  ordered := by
    intro k s hf
    have hmem : (k, s) ∈ rootCtx.zone := by
      obtain ⟨e, he, hs⟩ := map_eq_some_iff.1 hf
      have hk := find?_some he
      rw [decide_eq_true_eq] at hk
      rw [← hk, ← hs]
      exact mem_of_find?_eq_some he
    cases mem_singleton.1 hmem
    exact pairwise_singleton _ _
  apex := ⟨_, rfl, rfl⟩
  serial := by decide +kernel

/-- The state and the serial of the zone when a stream has been taken. -/
def ending : EStateM.Result Stop World Unit → Option (State × Option UInt32)
  | .ok _ w => some (w.xfr.state, zoneSerial ⟨[[]]⟩ w.xfr.zone)
  | .error _ _ => none

/-- A response of one delta from serial 1 to serial 3 that says serial 5 at its start and at its end. -/
theorem ixfr_ends_at_other_serial : Ready rootEnv rootCtx ∧
    ∃ w, feed rootEnv [soaRr 5, soaRr 1, soaRr 3, soaRr 5] ⟨rootCtx, []⟩ = .ok () w ∧
      ¬Outcome rootEnv rootCtx [soaRr 5, soaRr 1, soaRr 3, soaRr 5] w.xfr := by
  refine ⟨rootCtx_ready, ?_⟩
  have hrun : ending (feed rootEnv [soaRr 5, soaRr 1, soaRr 3, soaRr 5] ⟨rootCtx, []⟩) = some (.ixfrEnd, some 3) := by
    decide +kernel
  cases hf : feed rootEnv [soaRr 5, soaRr 1, soaRr 3, soaRr 5] ⟨rootCtx, []⟩ with
  | error e w =>
    rw [hf] at hrun
    cases hrun
  | ok u w =>
    rw [hf, ending, some_inj, Prod.mk.injEq] at hrun
    refine ⟨w, rfl, ?_⟩
    rintro ⟨ds, -, -, hend⟩
    obtain ⟨r, rest, hr, hserial⟩ := hend hrun.1
    cases hr
    rw [show rootEnv.origin = ⟨[[]]⟩ from rfl, hrun.2] at hserial
    exact absurd hserial (by decide +kernel)

instance (env : Env) (s : Ctx) (r : Rr) : Decidable (StepOk env s r) :=
  decidable_of_iff (r.rdclass = env.rdclass ∧ r.rdata.length < 65536 ∧
      (r.type = soa → 20 ≤ r.rdata.length ∧ r.name.lower = env.origin.lower) ∧
      (s.state = .ixfrAdd → r.type = soa → serialOf r = s.endSerial → s.currentSerial = s.endSerial))
    ⟨fun ⟨a, b, c, d⟩ => ⟨a, b, c, d⟩, fun ⟨a, b, c, d⟩ => ⟨a, b, c, d⟩⟩

/-- Whether the records of a stream meet a condition is found out by running the transfer. -/
def decideGuarded {env : Env} {C : Ctx → Rr → Prop} [∀ s r, Decidable (C s r)] :
    ∀ (rs : List Rr) (w : World), Decidable (Guarded env C rs w)
  | [], _ => .isTrue trivial
  | r :: rs, w =>
    have : Decidable (∀ w', xfrRr env r w = .ok () w' → Guarded env C rs w') :=
      match hx : xfrRr env r w with
      | .error _ _ => .isTrue (fun _ h => by cases h)
      | .ok _ v =>
        have : Decidable (Guarded env C rs v) := decideGuarded rs v
        decidable_of_iff (Guarded env C rs v) ⟨fun h _ hv => by cases hv; exact h, fun h => h v rfl⟩
    inferInstanceAs (Decidable (_ ∧ _))

instance {env : Env} {C : Ctx → Rr → Prop} [∀ s r, Decidable (C s r)] (rs : List Rr) (w : World) :
    Decidable (Guarded env C rs w) := decideGuarded rs w

def addressRr (last : UInt8) : Rr := ⟨⟨[[]]⟩, 300, 1, 1, [192, 0, 2, last]⟩

/-- Two deltas: addresses are added, and then one of them is deleted and another added. -/
def twoDeltas : List Rr :=
  [soaRr 5, soaRr 1, soaRr 3, addressRr 1, addressRr 2, soaRr 3, addressRr 1, soaRr 5, addressRr 3, soaRr 5]

theorem ixfr_commits_deltas_root : Guarded rootEnv (StepOk rootEnv) twoDeltas ⟨rootCtx, []⟩ ∧
    ∃ w, feed rootEnv twoDeltas ⟨rootCtx, []⟩ = .ok () w ∧
      Outcome rootEnv rootCtx twoDeltas w.xfr ∧ w.xfr.state = .ixfrEnd := by
  have hguard : Guarded rootEnv (StepOk rootEnv) twoDeltas ⟨rootCtx, []⟩ := by decide +kernel
  obtain ⟨hok, -⟩ := ixfr_commits_deltas rootEnv_trans rootCtx_ready [] (fun f hf => absurd hf not_mem_nil) _ hguard
  refine ⟨hguard, ?_⟩
  have hrun : ending (feed rootEnv twoDeltas ⟨rootCtx, []⟩) = some (.ixfrEnd, some 5) := by decide +kernel
  cases hf : feed rootEnv twoDeltas ⟨rootCtx, []⟩ with
  | error e w =>
    rw [hf] at hrun
    cases hrun
  | ok u w =>
    rw [hf, ending, some_inj, Prod.mk.injEq] at hrun
    exact ⟨w, rfl, hok w hf, hrun.1⟩

end Bind9.Xfrin
