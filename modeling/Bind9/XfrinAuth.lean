import Bind9.TsigExchange
import Bind9.XfrinCommit
import Bind9.XfrinRecv

/-! # Which records of a signed transfer reach the zone

With a TSIG key, up to a hundred messages in a row may come without a TSIG; their records are taken before the TSIG that
covers them is seen.  The records of a whole zone wait in a database of their own until the last message was checked.
Those of an incremental transfer wait only until their delta is complete: the SOA record behind it may stand in a
message without TSIG, and then `ixfr_commit` commits what nobody has vouched for.

`Held` says that what a transfer holds back comes from a set of records while the zone and its journal stay as they are;
every step but a commit keeps it. -/

namespace Bind9.Xfrin

open List hiding modify
open Option hiding get mem_map

open Diff ZoneDb Journal Serial Hoare

/-! ### Where records come from -/

/-- The record of a key with this rdata is in `R`. -/
def Came (R : Rr → Prop) (k : Key) (r : Rdata) : Prop :=
  ∃ x, R x ∧ x.name.lower = k.name.lower ∧ x.type = k.type.base ∧ x.rdata = r

/-- The transactions hold records of `R` only. -/
def LogFrom (R : Rr → Prop) (log : Option (List Txn)) : Prop :=
  ∀ xs, log = some xs → ∀ x ∈ xs, ∀ t ∈ x.tuples, Came R (tupleKey t) t.rdata

/-- The committed records are in `R`. -/
structure Committed (R : Rr → Prop) (s : Ctx) : Prop where
  zone : Within (Came R) s.zone
  journal : LogFrom R s.journalfile

/-- The zone and its journal are `z` and `log`, and what waits to be committed is in `R`. -/
structure Held (R : Rr → Prop) (z : Zone) (log : Option (List Txn)) (s : Ctx) : Prop where
  zone : s.zone = z
  log : s.journalfile = log
  ver : ∀ v, s.ver = some v → Within (Came R) v
  load : ∀ y, s.db = .load y → Within (Came R) y
  diff : ∀ t ∈ s.diff, Came R (tupleKey t) t.rdata
  txn : ∀ ts, s.journal = some (some ts) → ∀ t ∈ ts, Came R (tupleKey t) t.rdata

section held

variable {R R' : Rr → Prop} {z : Zone} {log : Option (List Txn)} {s : Ctx}

theorem Came.mono (hR : ∀ x, R x → R' x) {k : Key} {r : Rdata} (h : Came R k r) : Came R' k r := by
  obtain ⟨x, hx, hrest⟩ := h
  exact ⟨x, hR x hx, hrest⟩

theorem came_tuple {r : Rr} (hr : R r) (op : DiffOp) : Came R (tupleKey (r.tuple op)) (r.tuple op).rdata :=
  ⟨r, hr, (Name.lower_lower r.name).symm, rfl, rfl⟩

theorem Committed.mono (hR : ∀ x, R x → R' x) (h : Committed R s) : Committed R' s where
  zone := h.zone.mono (fun _ _ => Came.mono hR)
  journal xs hxs x hx t ht := (h.journal xs hxs x hx t ht).mono hR

theorem Held.mono (hR : ∀ x, R x → R' x) (h : Held R z log s) : Held R' z log s where
  zone := h.zone
  log := h.log
  ver v hv := (h.ver v hv).mono (fun _ _ => Came.mono hR)
  load y hy := (h.load y hy).mono (fun _ _ => Came.mono hR)
  diff t ht := (h.diff t ht).mono hR
  txn ts hts t ht := (h.txn ts hts t ht).mono hR

/-- The fields that `Held` looks at. -/
def Ctx.held (s : Ctx) : Zone × Option (List Txn) × Option Zone × Database × Tuples × Option (Option Tuples) :=
  (s.zone, s.journalfile, s.ver, s.db, s.diff, s.journal)

theorem Held.congr {t : Ctx} (h : Held R z log s) (ht : t.held = s.held) : Held R z log t := by
  simp only [Ctx.held, Prod.mk.injEq] at ht
  obtain ⟨hz, hl, hv, hd, hf, hj⟩ := ht
  exact ⟨hz.trans h.zone, hl.trans h.log, hv ▸ h.ver, hd ▸ h.load, hf ▸ h.diff, hj ▸ h.txn⟩

end held

/-! ### Steps that keep a property of the transfer -/

/-- `P` holds after the step if it did before, also when the step fails. -/
abbrev Keeps {α : Type} (P : Ctx → Prop) (x : XfrM α) : Prop :=
  Triple (On (fun _ => True) P) x (fun _ => On (fun _ => True) P) (Err (fun _ => True) P)

section keeps

variable {P : Ctx → Prop} {α β : Type}

theorem on_eq {s : Ctx} (hs : P s) {w : World} (h : On (fun _ => True) (fun t => t = s) w) : On (fun _ => True) P w :=
  h.mono (by rintro t rfl; exact hs)

theorem Keeps.call : Keeps P call := call_spec (fun _ => trivial) (fun _ => id)

theorem Keeps.update {f : Ctx → Ctx} (h : ∀ s, P s → P (f s)) : Keeps P (update f) := update_spec h

theorem Keeps.insist (b : Bool) : Keeps P (insist b) := insist_spec (fun _ hs => .inr ⟨trivial, hs⟩)

theorem Keeps.fail (r : Result) : Keeps P (fail r : XfrM α) := fail_spec trivial (fun _ => id)

theorem Keeps.check (x : Exec α) : Keeps P (check x) :=
  (check_spec (fun _ _ hs _ => ⟨trivial, hs⟩)).conseq (fun _ => id) (fun _ _ hw => hw.mono (fun _ hs => hs.1)) (fun _ _ => id)

/-- A computation and what follows it, which may use its value. -/
theorem Keeps.check_bind {x : Exec α} {f : α → XfrM β} (h : ∀ a, x = .ok a → Keeps P (f a)) :
    Keeps P (Xfrin.check x >>= f) := by
  refine (check_spec (fun _ _ hs _ => ⟨trivial, hs⟩)).bind (fun a => ?_)
  exact Triple.of_pre (fun w hw => hw.1.2) (fun hx => (h a hx).pre (fun w hw => hw.mono (fun _ hs => hs.1)))

theorem Keeps.context_bind {f : Ctx → XfrM α} (h : ∀ s, P s → Keeps P (f s)) : Keeps P (context >>= f) :=
  Xfrin.context_bind (fun s hs => (h s hs).pre (fun _ hw => on_eq hs hw))

theorem Keeps.bind {x : XfrM α} {f : α → XfrM β} (hx : Keeps P x) (hf : ∀ a, Keeps P (f a)) : Keeps P (x >>= f) :=
  Triple.bind hx hf

theorem Keeps.pure (a : α) : Keeps P (Pure.pure a) := Triple.pure (fun _ => id)

theorem Keeps.runIf {b : Bool} {x : XfrM Unit} (hx : b = true → Keeps P x) : Keeps P (runIf b x) :=
  runIf_spec hx (fun _ _ => id)

theorem Keeps.ite {c : Prop} [Decidable c] {x y : XfrM α} (hx : c → Keeps P x) (hy : ¬c → Keeps P y) :
    Keeps P (if c then x else y) := Triple.ite hx hy

end keeps

/-! ### What is held back -/

section steps

variable {env : Env} {R : Rr → Prop} {z : Zone} {log : Option (List Txn)} {r : Rr}

/-- A change of the other fields. -/
theorem keeps_held_update {f : Ctx → Ctx} (h : ∀ s, (f s).held = s.held) : Keeps (Held R z log) (update f) :=
  Keeps.update (fun s hs => hs.congr (h s))

theorem setState_held (st : State) : Keeps (Held R z log) (setState st) := keeps_held_update (fun _ => rfl)

theorem beginTransaction_held : Keeps (Held R z log) beginTransaction := by
  refine Keeps.context_bind (fun s hs => (Keeps.insist _).bind (fun _ => Keeps.call.bind (fun _ => Keeps.update ?_)))
  exact fun t ht => ⟨ht.zone, ht.log, ht.ver, ht.load, ht.diff, fun ts hts => by cases hts; exact fun _ h => by cases h⟩

theorem writediff_held {diff : Tuples} (hdiff : ∀ t ∈ diff, Came R (tupleKey t) t.rdata) :
    Keeps (Held R z log) (writediff diff) := by
  refine Keeps.context_bind (fun s hs => (Keeps.insist _).bind (fun _ => (Keeps.insist _).bind (fun _ =>
    (Keeps.insist _).bind (fun _ => Keeps.call.bind (fun _ => Keeps.update (fun t ht => ?_))))))
  refine ⟨ht.zone, ht.log, ht.ver, ht.load, ht.diff, fun ts hts u hu => ?_⟩
  cases hts
  obtain hu | hu := mem_append.1 hu
  · cases hj : s.journal.join with
    | none =>
      rw [hj] at hu
      cases hu
    | some us =>
      rw [hj] at hu
      exact hs.txn us (join_eq_some_iff.1 hj) u hu
  · exact hdiff u hu

/-- One more record in `diff`. -/
theorem keeps_append (hr : R r) (op : DiffOp) :
    Keeps (Held R z log) (update (fun s => { s with diff := s.diff ++ [r.tuple op], difflen := s.difflen + 1 })) := by
  refine Keeps.update (fun t ht => ⟨ht.zone, ht.log, ht.ver, ht.load, fun u hu => ?_, ht.txn⟩)
  obtain hu | hu := mem_append.1 hu
  · exact ht.diff u hu
  · rw [mem_singleton.1 hu]
    exact came_tuple hr op

variable (hz : Within (Came R) z)
include hz

theorem ixfrOpen_held : Keeps (Held R z log) ixfrOpen := by
  refine Keeps.context_bind (fun s hs => Keeps.runIf (fun _ => Keeps.call.bind (fun _ => Keeps.bind ?_ (fun _ => ?_))))
  · refine Keeps.update (fun t ht => ⟨ht.zone, ht.log, fun v hv => ?_, ht.load, ht.diff, ht.txn⟩)
    cases hv
    rw [ht.zone]
    exact hz
  · exact Keeps.runIf (fun _ => beginTransaction_held)

theorem ixfrApply_held : Keeps (Held R z log) (ixfrApply env) := by
  refine (ixfrOpen_held hz).bind (fun _ => Keeps.context_bind (fun s hs => Keeps.call.bind (fun _ => ?_)))
  refine Keeps.check_bind (fun v hv => Keeps.bind ?_ (fun _ => Keeps.bind ?_ (fun _ => ?_)))
  · have hver : Within (Came R) (s.ver.getD s.zone) := by
      cases hs' : s.ver with
      | none => exact hs.zone ▸ hz
      | some y => exact hs.ver y hs'
    refine Keeps.update (fun t ht => ⟨ht.zone, ht.log, fun y hy => ?_, ht.load, ht.diff, ht.txn⟩)
    cases hy
    exact hver.diffApply hs.diff hv
  · exact Keeps.runIf (fun _ => writediff_held hs.diff)
  · exact Keeps.update (fun t ht => ⟨ht.zone, ht.log, ht.ver, ht.load, (fun _ h => by cases h), ht.txn⟩)

theorem ixfrPutdata_held (hr : R r) (op : DiffOp) : Keeps (Held R z log) (ixfrPutdata env op r) := by
  refine (Keeps.runIf (fun _ => Keeps.call)).bind (fun _ => Keeps.call.bind (fun _ => (keeps_append hr op).bind (fun _ => ?_)))
  exact Keeps.context_bind (fun s hs => Keeps.runIf (fun _ => ixfrApply_held hz))

omit hz

theorem ixfrInit_held : Keeps (Held R z log) ixfrInit := by
  refine Keeps.context_bind (fun s hs => Keeps.ite (fun _ => Keeps.fail _) (fun _ => ?_))
  refine Keeps.bind (keeps_held_update (fun _ => rfl)) (fun _ => (Keeps.insist _).bind (fun _ => ?_))
  refine Keeps.bind (keeps_held_update (fun _ => rfl)) (fun _ => Keeps.runIf (fun _ => Keeps.call.bind (fun _ => ?_)))
  exact Keeps.update (fun t ht => ⟨ht.zone, ht.log, ht.ver, ht.load, ht.diff, fun ts hts => by cases hts⟩)

theorem axfrInit_held : Keeps (Held R z log) axfrInit := by
  refine Keeps.bind ?_ (fun _ => Keeps.call.bind (fun _ => Keeps.bind ?_ (fun _ => Keeps.call)))
  · exact Keeps.update (fun t ht => ⟨ht.zone, ht.log, ht.ver, (fun y hy => by cases hy), ht.diff, ht.txn⟩)
  · refine Keeps.update (fun t ht => ⟨ht.zone, ht.log, ht.ver, fun y hy => ?_, ht.diff, ht.txn⟩)
    cases hy
    exact Within.nil

theorem loadGroup_ok {y y' : Zone} {t : DiffTuple} {ts : Tuples} (h : loadGroup env y (t :: ts) = .ok y') :
    ∃ slab, fromrdataset env.toEnv t.type ((t :: ts).map DiffTuple.rdata) = .ok slab ∧
      y' = (addrdataset env.toEnv y (tupleKey t) t.ttl slab ⟨true, false, false⟩).1 := by
  unfold loadGroup at h
  obtain ⟨-, -, h⟩ := bind_eq_ok h
  split at h
  · cases h
  split at h
  · cases h
  split at h
  · cases h
  obtain ⟨slab, hslab, h⟩ := bind_eq_ok h
  simp only at h
  split at h
  · cases h
    exact ⟨slab, hslab, rfl⟩
  · cases h

theorem diffLoad_within {y y' : Zone} {diff : Tuples} (hy : Within (Came R) y)
    (hdiff : ∀ t ∈ diff, Came R (tupleKey t) t.rdata) (h : diffLoad env y diff = .ok y') : Within (Came R) y' := by
  refine groups_induction (motive := fun _ x => Within (Came R) x) hy ?_ h
  intro done t ts rest x x' hd hts hx hgroup
  obtain ⟨slab, hslab, rfl⟩ := loadGroup_ok hgroup
  refine hx.addrdataset (group_within hslab hts (fun u hu => ?_) hdiff)
  rw [hd]
  exact mem_append_right _ (mem_append_left _ hu)

theorem Held.loading {s : Ctx} (h : Held R z log s) : Within (Came R) (s.db.loading.getD []) := by
  cases hdb : s.db with
  | null | zone => exact Within.nil
  | load y => exact h.load y hdb

theorem axfrApply_held : Keeps (Held R z log) (axfrApply env) := by
  refine Keeps.context_bind (fun s hs => (Keeps.insist _).bind (fun _ => Keeps.call.bind (fun _ => ?_)))
  refine Keeps.check_bind (fun y hy => Keeps.update (fun t ht => ?_))
  refine ⟨ht.zone, ht.log, ht.ver, fun y' hy' => ?_, (fun _ h => by cases h), ht.txn⟩
  cases hy'
  exact diffLoad_within hs.loading hs.diff hy

theorem axfrPutdata_held (hr : R r) : Keeps (Held R z log) (axfrPutdata env r) := by
  refine Keeps.call.bind (fun _ => Keeps.call.bind (fun _ => (keeps_append hr .add).bind (fun _ => ?_)))
  exact Keeps.context_bind (fun s hs => Keeps.runIf (fun _ => axfrApply_held))

theorem rrAxfr_held (hr : R r) : Keeps (Held R z log) (rrAxfr env r) := by
  refine Keeps.ite (fun _ => Keeps.pure _) (fun _ => (axfrPutdata_held hr).bind (fun _ => Keeps.runIf (fun _ => ?_)))
  exact (axfrApply_held.bind (fun _ => Keeps.call)).bind (fun _ => setState_held _)

theorem rrSoaquery_held (s : Ctx) : Keeps (Held R z log) (rrSoaquery env s r) := by
  refine Keeps.ite (fun _ => Keeps.fail _) (fun _ => (Keeps.check _).bind (fun n => ?_))
  exact Keeps.bind (keeps_held_update (fun _ => rfl)) (fun _ => Keeps.ite (fun _ => Keeps.fail _) (fun _ => setState_held _))

theorem rrInitialsoa_held (s : Ctx) : Keeps (Held R z log) (rrInitialsoa env s r) := by
  refine Keeps.ite (fun _ => Keeps.fail _) (fun _ => (Keeps.check _).bind (fun n => ?_))
  refine Keeps.bind (keeps_held_update (fun _ => rfl)) (fun _ => Keeps.ite (fun _ => Keeps.fail _) (fun _ => ?_))
  exact Keeps.bind (keeps_held_update (fun _ => rfl)) (fun _ => setState_held _)

include hz

theorem rrDelsoa_held (hr : R r) : Keeps (Held R z log) (rrDelsoa env r) :=
  (Keeps.insist _).bind (fun _ => (ixfrPutdata_held hz hr .del).bind (fun _ => setState_held _))

theorem rrAddsoa_held (hr : R r) : Keeps (Held R z log) (rrAddsoa env r) :=
  (Keeps.insist _).bind (fun _ => (ixfrPutdata_held hz hr .add).bind (fun _ => setState_held _))

theorem rrFirstdata_held (s : Ctx) (hr : R r) : Keeps (Held R z log) (rrFirstdata env s r) := by
  refine (Keeps.check _).bind (fun b => Keeps.ite (fun _ => ?_) (fun _ => ?_))
  · exact ixfrInit_held.bind (fun _ => (setState_held _).bind (fun _ => rrDelsoa_held hz hr))
  · exact axfrInit_held.bind (fun _ => (setState_held _).bind (fun _ => rrAxfr_held hr))

theorem rrDel_held (hr : R r) : Keeps (Held R z log) (rrDel env r) := by
  refine Keeps.ite (fun _ => (Keeps.check _).bind (fun n => ?_)) (fun _ => ixfrPutdata_held hz hr .del)
  exact Keeps.bind (keeps_held_update (fun _ => rfl)) (fun _ => rrAddsoa_held hz hr)

end steps

/-! ### Commits -/

/-- A record that completes a delta: in the state that takes additions, a SOA record with the serial that the transfer
ends with or that of the delta. -/
def Completes (s : Ctx) (r : Rr) : Prop :=
  s.state = .ixfrAdd ∧ r.type = soa ∧
    ∃ n, soaGetserial r.rdata = .ok n ∧ (n = s.endSerial ∨ n = s.currentSerial)

/-- Everything that the transfer has, committed or not, is in `R`. -/
structure Prov (R : Rr → Prop) (s : Ctx) : Prop where
  committed : Committed R s
  held : Held R s.zone s.journalfile s

section commits

variable {env : Env} {R : Rr → Prop} {z : Zone} {log : Option (List Txn)} {r : Rr} {α : Type}

theorem Prov.of_held {s : Ctx} (hz : Within (Came R) z) (hlog : LogFrom R log) (h : Held R z log s) : Prov R s := by
  obtain ⟨rfl, rfl⟩ : z = s.zone ∧ log = s.journalfile := ⟨h.zone.symm, h.log.symm⟩
  exact ⟨⟨hz, hlog⟩, h⟩

/-- A step that commits nothing. -/
theorem Keeps.prov {x : XfrM α} (h : ∀ z log, Within (Came R) z → Keeps (Held R z log) x) : Keeps (Prov R) x := by
  intro w hw
  obtain ⟨hp, -⟩ := hw
  have hzone := hp.committed.zone
  have hlog := hp.committed.journal
  have hx := h _ w.xfr.journalfile hzone w ⟨hp.held, fun _ _ => trivial⟩
  refine ⟨fun a w' hw' => ⟨?_, fun _ _ => trivial⟩, fun e w' hw' => ⟨trivial, ?_⟩⟩
  · exact Prov.of_held hzone hlog (hx.1 a w' hw').1
  · exact Prov.of_held hzone hlog (hx.2 e w' hw').2

theorem LogFrom.snoc {x : Txn} (h : LogFrom R log) (hx : ∀ t ∈ x.tuples, Came R (tupleKey t) t.rdata) :
    LogFrom R (log.map (· ++ [x])) := by
  intro xs hxs y hy
  obtain ⟨ys, hys, rfl⟩ := map_eq_some_iff.1 hxs
  obtain hy | hy := mem_append.1 hy
  · exact h ys hys y hy
  · rw [mem_singleton.1 hy]
    exact hx

theorem Prov.logged {s : Ctx} {log' : Option (List Txn)} {j : Option (Option Tuples)} (h : Prov R s)
    (hlog : LogFrom R log') (hj : ∀ ts, j = some (some ts) → s.journal = j) :
    Prov R { s with journalfile := log', journal := j } where
  committed := ⟨h.committed.zone, hlog⟩
  held := ⟨rfl, rfl, h.held.ver, h.held.load, h.held.diff, fun ts hts => h.held.txn ts ((hj ts hts).trans hts)⟩

theorem journalCommit_prov : Keeps (Prov R) journalCommit := by
  refine Keeps.context_bind (fun s hs => (Keeps.insist _).bind (fun _ => (Keeps.check _).bind (fun _ => ?_)))
  have hlog : LogFrom R (s.journalfile.map (· ++ [⟨s.journal.join.getD []⟩])) := by
    refine hs.committed.journal.snoc (fun t ht => ?_)
    cases hj : s.journal.join with
    | none =>
      rw [hj] at ht
      cases ht
    | some ts =>
      rw [hj] at ht
      exact hs.held.txn ts (join_eq_some_iff.1 hj) t ht
  refine Keeps.bind ?_ (fun f => ?_)
  · exact nextFault_spec.conseq (fun _ => id) (fun _ _ hw => hw.mono (fun _ ht => ht.1)) (fun _ _ h => h)
  · cases f with
    | none => exact Keeps.update (fun t ht => ht.logged hlog (fun ts hts => by cases hts))
    | some f =>
      refine Keeps.bind (Keeps.update (fun t ht => ?_)) (fun _ => Keeps.fail _)
      refine ht.logged ?_ (fun _ _ => rfl)
      split
      · exact hlog
      · exact ht.committed.journal

theorem closeversion_prov {s : Ctx} (h : Prov R s) : Prov R (closeversion s) where
  committed := by
    refine ⟨?_, h.committed.journal⟩
    cases hv : s.ver with
    | none =>
      rw [closeversion, hv]
      exact h.committed.zone
    | some v =>
      rw [closeversion, hv]
      exact h.held.ver v hv
  held := ⟨rfl, rfl, (fun v hv => by cases hv), h.held.load, h.held.diff, h.held.txn⟩

theorem ixfrCommit_prov : Keeps (Prov R) (ixfrCommit env) := by
  refine Keeps.bind (Keeps.prov (fun z log hz => ixfrApply_held hz)) (fun _ => Keeps.context_bind (fun s hs => ?_))
  exact Keeps.bind (Keeps.runIf (fun _ => journalCommit_prov)) (fun _ => Keeps.update (fun t => closeversion_prov))

theorem rrAdd_prov (s : Ctx) (hr : R r) : Keeps (Prov R) (rrAdd env s r) := by
  refine Keeps.ite (fun _ => (Keeps.check _).bind (fun n => ?_)) (fun _ => ?_)
  · refine Keeps.ite (fun _ => ?_) (fun _ => Keeps.ite (fun _ => Keeps.fail _) (fun _ => ?_))
    · exact ixfrCommit_prov.bind (fun _ => Keeps.prov (fun z log hz => setState_held _))
    · refine ixfrCommit_prov.bind (fun _ => Keeps.prov (fun z log hz => ?_))
      exact (setState_held _).bind (fun _ => rrDelsoa_held hz hr)
  · exact Keeps.ite (fun _ => Keeps.fail _) (fun _ => Keeps.prov (fun z log hz => ixfrPutdata_held hz hr .add))

/-- An addition that completes nothing. -/
theorem rrAdd_held (hz : Within (Came R) z) {s : Ctx} (hs : s.state = .ixfrAdd) (hr : R r) (hc : ¬Completes s r) :
    Keeps (Held R z log) (rrAdd env s r) := by
  refine Keeps.ite (fun htype => Keeps.check_bind (fun n hn => ?_)) (fun _ => ?_)
  · refine Keeps.ite (fun he => ?_) (fun _ => Keeps.ite (fun _ => Keeps.fail _) (fun he => ?_))
    · exact absurd ⟨hs, htype, n, hn, .inl he⟩ hc
    · exact absurd ⟨hs, htype, n, hn, .inr (not_not.1 he)⟩ hc
  · exact Keeps.ite (fun _ => Keeps.fail _) (fun _ => ixfrPutdata_held hz hr .add)

/-- A record that completes nothing leaves the zone and its journal as they are. -/
theorem rrSwitch_held (hz : Within (Came R) z) (s : Ctx) (hr : R r) (hc : ¬Completes s r) :
    Keeps (Held R z log) (rrSwitch env s r) := by
  unfold rrSwitch
  cases hs : s.state with
  | soaquery => exact rrSoaquery_held s
  | gotsoa => exact Keeps.pure _
  | initialsoa => exact rrInitialsoa_held s
  | firstdata => exact rrFirstdata_held hz s hr
  | ixfrDelsoa => exact rrDelsoa_held hz hr
  | ixfrDel => exact rrDel_held hz hr
  | ixfrAddsoa => exact rrAddsoa_held hz hr
  | ixfrAdd => exact rrAdd_held hz hs hr hc
  | axfr => exact rrAxfr_held hr
  | axfrEnd | ixfrEnd => exact Keeps.fail _

/-- Whatever a record does, it brings nothing but itself. -/
theorem xfrRr_prov (hr : R r) : Keeps (Prov R) (xfrRr env r) := by
  refine Keeps.ite (fun _ => Keeps.fail _) (fun _ => Keeps.context_bind (fun s hs => ?_))
  by_cases hc : Completes s r
  · rw [rrSwitch, hc.1]
    exact rrAdd_prov s hr
  · exact Keeps.prov (fun z log hz => rrSwitch_held hz s hr hc)

theorem xfrRr_held (hz : Within (Came R) z) (hr : R r) :
    Triple (fun w => On (fun _ => True) (Held R z log) w ∧ ¬Completes w.xfr r) (xfrRr env r)
      (fun _ => On (fun _ => True) (Held R z log)) (Err (fun _ => True) (Held R z log)) := by
  rintro w ⟨hw, hc⟩
  refine (?_ : Triple (On (fun _ => True) (fun t => t = w.xfr)) _ _ _) w ⟨rfl, hw.2⟩
  refine Triple.ite (fun _ => (Keeps.fail _).pre (fun _ => on_eq hw.1)) (fun _ => Xfrin.context_bind ?_)
  rintro s rfl
  exact (rrSwitch_held hz _ hr hc).pre (fun _ => on_eq hw.1)

theorem feed_prov : ∀ (rs : List Rr), (∀ r ∈ rs, R r) → Keeps (Prov R) (feed env rs)
  | [], _ => Keeps.pure _
  | r :: rs, h => by
    rw [feed, forM_cons]
    exact (xfrRr_prov (h r mem_cons_self)).bind (fun _ => feed_prov rs (fun x hx => h x (mem_cons_of_mem r hx)))
theorem feed_held (hz : Within (Came R) z) {rs : List Rr} (hrs : ∀ r ∈ rs, R r) :
    Triple (fun w => On (fun _ => True) (Held R z log) w ∧ Guarded env (fun s r => ¬Completes s r) rs w) (feed env rs)
      (fun _ => On (fun _ => True) (Held R z log)) (Err (fun _ => True) (Held R z log)) := by
  refine feed_guarded (I := fun _ => Held R z log) (fun fed r rest hs => xfrRr_held hz (hrs r ?_)) rs []
    (rfl : rs = [] ++ rs)
  rw [hs]
  exact mem_append_right _ mem_cons_self

end commits

/-! ### The connection -/

/-- `P` holds of the transfer, and its key is `k`. -/
def At (k : Option TsigKey) (P : Ctx → Prop) (p : Peer) : Prop := p.tsigkey = k ∧ P p.xfr

/-- A step of the connection that keeps `P`, also when it fails. -/
abbrev Carries {α : Type} (k : Option TsigKey) (P : Ctx → Prop) (x : RecvM α) : Prop :=
  Triple (At k P) x (fun _ => At k P) (fun _ => At k P)

section carries

variable {env : RecvEnv} {k : Option TsigKey} {P Q E : Ctx → Prop} {α β : Type}

theorem lift_spec {x : XfrM α} {A : World → Prop} (h : Triple A x (fun _ => On (fun _ => True) Q) (Err (fun _ => True) E)) :
    Triple (fun p => p.tsigkey = k ∧ A p.world) (liftXfr x) (fun _ => At k Q) (fun _ => At k E) := by
  intro p hp
  obtain ⟨hok, herr⟩ := h p.world hp.2
  cases hx : x p.world with
  | ok a w =>
    rw [liftXfr, hx]
    refine ⟨fun b p' hp' => ?_, fun e p' hp' => by cases hp'⟩
    cases hp'
    exact ⟨hp.1, (hok a w hx).1⟩
  | error e w =>
    rw [liftXfr, hx]
    refine ⟨(fun b p' hp' => by cases hp'), fun e' p' hp' => ?_⟩
    cases hp'
    exact ⟨hp.1, (herr e w hx).2⟩

theorem Keeps.lift {x : XfrM α} (h : Keeps P x) : Carries k P (liftXfr x) :=
  (lift_spec h).pre (fun _ hp => ⟨hp.1, hp.2, fun _ _ => trivial⟩)

theorem Carries.bind {x : RecvM α} {f : α → RecvM β} (hx : Carries k P x) (hf : ∀ a, Carries k P (f a)) :
    Carries k P (x >>= f) := Triple.bind hx hf

/-- A change of the fields of the connection. -/
theorem Carries.modify {f : Peer → Peer} (h : ∀ p, (f p).tsigkey = p.tsigkey ∧ (f p).xfr = p.xfr) :
    Carries k P (modify f) := by
  refine Triple.modify (fun p hp => ⟨(h p).1.trans hp.1, ?_⟩)
  rw [(h p).2]
  exact hp.2

theorem Carries.get_bind {f : Peer → RecvM α} (h : ∀ p, At k P p → Carries k P (f p)) : Carries k P (get >>= f) :=
  Triple.get_bind (fun p hp => (h p hp).pre (by rintro q rfl; exact hp))

theorem Carries.fail (r : Result) : Carries k P (recvFail r : RecvM α) := Triple.throw (fun _ => id)

theorem Carries.pure (a : α) : Carries k P (Pure.pure a : RecvM α) := Triple.pure (fun _ => id)

theorem Carries.ite {c : Prop} [Decidable c] {x y : RecvM α} (hx : c → Carries k P x) (hy : ¬c → Carries k P y) :
    Carries k P (if c then x else y) := Triple.ite hx hy

end carries

section messages

variable {env : RecvEnv} {R : Rr → Prop} {z : Zone} {log : Option (List Txn)} {k : Option TsigKey}

theorem requestSerial_held : Keeps (Held R z log) (requestSerial env) := by
  refine Keeps.context_bind (fun s hs => Keeps.runIf (fun _ => (Keeps.insist _).bind (fun _ => ?_)))
  exact (Keeps.check _).bind (fun n => keeps_held_update (fun _ => rfl))

theorem sendRequest_held (requery : Option TsigRdata) : Carries k (Held R z log) (sendRequest env requery) := by
  refine Carries.bind (Keeps.lift ?_) (fun _ => Carries.bind (Carries.modify (fun p => ⟨rfl, rfl⟩)) (fun _ => ?_))
  · exact Keeps.call.bind (fun _ => requestSerial_held.bind (fun _ => keeps_held_update (fun _ => rfl)))
  · refine Carries.bind (Keeps.lift Keeps.call) (fun _ => Carries.bind (Carries.modify (fun p => ⟨rfl, rfl⟩)) (fun _ => ?_))
    exact Keeps.lift Keeps.call

theorem tryAxfr_held (m : Received) : Carries k (Held R z log) (tryAxfr env m) := by
  refine Carries.bind (Keeps.lift (Keeps.bind ?_ (fun _ => ?_))) (fun _ => Carries.bind ?_ (fun _ => sendRequest_held _))
  · refine Keeps.update (fun s hs => ⟨hs.zone, hs.log, ?_, hs.load, ?_, ?_⟩)
    · exact fun v hv => by cases hv
    · exact fun t ht => by cases ht
    · exact fun ts hts => by cases hts
  · exact keeps_held_update (fun _ => rfl)
  · exact Carries.modify (fun p => ⟨rfl, rfl⟩)

/-- The part in front of the records changes nothing that counts. -/
theorem recvHead_held (m : Received) : Carries k (Held R z log) (recvHead env m) := by
  refine Carries.get_bind (fun p hp => Carries.ite (fun _ => Carries.pure _) (fun _ => ?_))
  refine Carries.bind (Keeps.lift Keeps.call) (fun _ => Carries.bind (Carries.modify (fun p => ⟨rfl, rfl⟩)) (fun _ => ?_))
  have htry : Carries k (Held R z log) (tryAxfr env m >>= fun _ => pure (none : Option Message)) :=
    Carries.bind (tryAxfr_held m) (fun _ => Carries.pure _)
  refine Carries.ite (fun _ => Carries.ite (fun _ => Carries.fail _) (fun _ => htry)) (fun _ => ?_)
  refine Carries.ite (fun _ => htry) (fun _ => Carries.ite (fun _ => Carries.fail _) (fun _ => ?_))
  exact Carries.ite (fun _ => Carries.fail _) (fun _ => Carries.pure _)

theorem trivial_spec {α : Type} {p : Peer → Prop} (x : RecvM α) : Triple p x (fun _ _ => True) (fun _ _ => True) :=
  fun _ _ => ⟨fun _ _ _ => trivial, fun _ _ _ => trivial⟩

variable {msg : Message}

theorem recvHead_message {m : Received} {p p' : Peer} (h : recvHead env m p = .ok (some msg) p') :
    msg = ((p.message m).checksig m.sigenv env.algNumber).1 := by
  have hspec : Triple (fun q => q = p) (recvHead env m)
      (fun o _ => ∀ x, o = some x → x = ((p.message m).checksig m.sigenv env.algNumber).1) (fun _ _ => True) := by
    refine Triple.get_bind ?_
    rintro q rfl
    refine Triple.ite (fun _ => Triple.pure (fun _ _ x hx => by cases hx)) (fun _ => ?_)
    refine (trivial_spec _).bind (fun _ => (trivial_spec _).bind (fun _ => ?_))
    have htry : Triple (fun _ => True) (tryAxfr env m >>= fun _ => pure (none : Option Message))
        (fun o _ => ∀ x, o = some x → x = ((q.message m).checksig m.sigenv env.algNumber).1) (fun _ _ => True) :=
      (trivial_spec _).bind (fun _ => Triple.pure (fun _ _ x hx => by cases hx))
    refine Triple.ite (fun _ => Triple.ite (fun _ => Triple.throw (fun _ _ => trivial)) (fun _ => htry)) (fun _ => ?_)
    refine Triple.ite (fun _ => htry) (fun _ => Triple.ite (fun _ => Triple.throw (fun _ _ => trivial)) (fun _ => ?_))
    refine Triple.ite (fun _ => Triple.throw (fun _ _ => trivial)) (fun _ => Triple.pure (fun _ _ x hx => ?_))
    cases hx
    rfl
  exact (hspec p rfl).1 _ p' h msg rfl

theorem tsigVerifyTcp_frame (v : VerifyEnv) (msg : Message) (q : TsigRdata) (key : TsigKey) :
    (tsigVerifyTcp v msg q key).1.tsig = msg.tsig ∧ (tsigVerifyTcp v msg q key).1.tsigkey = msg.tsigkey := by
  unfold tsigVerifyTcp tcpDigest
  refine ⟨?_, ?_⟩
  all_goals
    repeat' split
    all_goals rfl

theorem tsigVerifyTried_frame (v : VerifyEnv) {key : TsigKey} (hk : msg.tsigkey = some key) :
    (tsigVerifyTried v msg).1.tsig = msg.tsig ∧ (tsigVerifyTried v msg).1.tsigkey = msg.tsigkey := by
  unfold tsigVerifyTried
  rw [hk]
  split
  · cases hq : msg.querytsig with
    | none => exact ⟨rfl, hk⟩
    | some q => exact ⟨(tsigVerifyTcp_frame v msg q key).1, (tsigVerifyTcp_frame v msg q key).2.trans hk⟩
  cases ht : msg.tsig with
  | none => exact ⟨ht, hk⟩
  | some t =>
    have hframe := verifyWithKey_frame v msg t key
    rw [ht, hk] at hframe
    simp only
    split
    · cases hq : msg.querytsig with
      | none => exact ⟨ht, hk⟩
      | some q =>
        simp only
        split
        · exact ⟨rfl, rfl⟩
        · exact ⟨hframe.1, hframe.2.2.1⟩
    · exact ⟨hframe.1, hframe.2.2.1⟩

theorem checksig_key (e : SigEnv) (algNumber : DstAlg → ℕ) {key : TsigKey} (hk : msg.tsigkey = some key) :
    (msg.checksig e algNumber).1.tsig = msg.tsig ∧ (msg.checksig e algNumber).1.tsigkey = some key := by
  have hverify : ∀ v : VerifyEnv, (tsigVerify v msg).1.tsig = msg.tsig ∧ (tsigVerify v msg).1.tsigkey = some key := by
    intro v
    obtain ⟨ht, hkey⟩ := tsigVerifyTried_frame v (show ({ msg with verifyAttempted := true } : Message).tsigkey = some key from hk)
    exact ⟨ht, hkey.trans hk⟩
  unfold Message.checksig
  rw [hk, isNone_some, Bool.false_and, Bool.false_and, if_neg Bool.false_ne_true, isSome_some, Bool.true_or,
    if_pos rfl]
  cases e.view with
  | none => exact hverify _
  | some view => exact hverify _

/-! ### Behind the records -/

theorem recvDoneEnd_held : Carries k (Held R z log) recvDoneEnd := by
  refine Carries.bind (Keeps.lift (Keeps.update (fun s hs => ?_))) (fun _ => Carries.modify (fun p => ⟨rfl, rfl⟩))
  exact ⟨hs.zone, hs.log, hs.ver, hs.load, hs.diff, fun ts hts => by cases hts⟩

/-- Only the end of a whole zone commits something here. -/
theorem recvSwitch_held (m : Received) {st : State} (hst : st ≠ .axfrEnd) :
    Carries k (Held R z log) (recvSwitch env m st) := by
  cases st with
  | gotsoa => exact Carries.bind (Keeps.lift (keeps_held_update (fun _ => rfl))) (fun _ => sendRequest_held _)
  | axfrEnd => exact absurd rfl hst
  | ixfrEnd => exact recvDoneEnd_held
  | soaquery | initialsoa | firstdata | ixfrDelsoa | ixfrDel | ixfrAddsoa | ixfrAdd | axfr => exact Keeps.lift Keeps.call

/-- With a key, a message without TSIG is not the last one. -/
theorem recvTail_held (m : Received) (ht : msg.tsig = none) {key : TsigKey} (hk : msg.tsigkey = some key) :
    Carries k (Held R z log) (recvTail env m msg) := by
  have htsig : Triple (At k (Held R z log)) (recvTsig msg)
      (fun _ => At k (fun s => Held R z log s ∧ s.state ≠ .axfrEnd)) (fun _ => At k (Held R z log)) := by
    unfold recvTsig
    rw [ht, hk, isSome_none, if_neg Bool.false_ne_true, isSome_some, if_pos rfl]
    refine Triple.get_bind (fun p hp => ?_)
    refine Triple.bind (R := fun _ q => q.tsigkey = k ∧ q.xfr = p.xfr) (Triple.modify ?_) (fun _ => ?_)
    · rintro q rfl
      exact ⟨hp.1, rfl⟩
    · refine Triple.ite (fun _ => Triple.throw ?_) (fun hc => Triple.pure ?_)
      · rintro q ⟨hq, hx⟩
        exact ⟨hq, hx ▸ hp.2⟩
      · rintro q ⟨hq, hx⟩
        refine ⟨hq, ?_⟩
        rw [hx]
        exact ⟨hp.2, fun hend => hc (.inr (.inr (.inl hend)))⟩
  refine Triple.bind htsig (fun _ => Triple.bind (R := fun _ => At k (fun s => Held R z log s ∧ s.state ≠ .axfrEnd))
    (Triple.modify (fun p hp => hp)) (fun _ => Triple.get_bind (fun p hp => ?_)))
  refine (recvSwitch_held m hp.2.2).pre ?_
  rintro q rfl
  exact ⟨hp.1, hp.2.1⟩

theorem zoneRrs_came {y : Zone} (hy : Within (Came R) y) {x : Rr} (hx : x ∈ zoneRrs env y) (op : DiffOp) :
    Came R (tupleKey (x.tuple op)) (x.tuple op).rdata := by
  obtain ⟨key, -, hx⟩ := mem_flatMap.1 hx
  cases hf : y.find key with
  | none =>
    rw [hf] at hx
    cases hx
  | some set =>
    rw [hf] at hx
    obtain ⟨rd, hrd, rfl⟩ := mem_map.1 hx
    obtain ⟨o, ho, hname, htype, hrdata⟩ := hy key set hf rd hrd
    exact ⟨o, ho, hname.trans (Name.lower_lower key.name).symm, htype, hrdata⟩

theorem replaceDiff_came {new old : Zone} (hnew : Within (Came R) new) (hold : Within (Came R) old) {t : DiffTuple}
    (ht : t ∈ replaceDiff env new old) : Came R (tupleKey t) t.rdata := by
  have ht' := (env.qsort.perm _ _).mem_iff.1 ht
  obtain h | h := mem_append.1 ht'
  · obtain ⟨x, hx, rfl⟩ := mem_map.1 h
    exact zoneRrs_came hnew (mem_of_mem_filter hx) .add
  · obtain ⟨x, hx, rfl⟩ := mem_map.1 h
    exact zoneRrs_came hold (mem_of_mem_filter hx) .del

theorem replaceCheck_prov {new : Zone} (hnew : Within (Came R) new) (loaded : Bool) :
    Keeps (Prov R) (replaceCheck env loaded new) := by
  refine Keeps.ite (fun _ => Keeps.fail _) (fun _ => Keeps.ite (fun _ => Keeps.fail _) (fun _ => ?_))
  refine Keeps.call.bind (fun _ => Keeps.context_bind (fun s hs => Keeps.ite (fun _ => ?_) (fun _ => ?_)))
  · refine Keeps.context_bind (fun s hs => (Keeps.check _).bind (fun _ => (Keeps.check _).bind (fun _ => ?_)))
    refine Keeps.ite (fun _ => Keeps.fail _) (fun _ => Keeps.context_bind (fun s hs => Keeps.runIf (fun _ => ?_)))
    refine Keeps.call.bind (fun _ => Keeps.bind (Keeps.update (fun t ht => ?_)) (fun _ => journalCommit_prov))
    refine ⟨⟨ht.committed.zone, ht.committed.journal⟩, rfl, rfl, ht.held.ver, ht.held.load, ht.held.diff, fun ts hts u hu => ?_⟩
    cases hts
    exact replaceDiff_came hnew ht.committed.zone hu
  · refine Keeps.bind ?_ (fun f => Keeps.update (fun t ht => ht.logged ?_ (fun _ _ => rfl)))
    · exact nextFault_spec.conseq (fun _ => id) (fun _ _ hw => hw.mono (fun _ ht => ht.1)) (fun _ _ h => h)
    · split
      · exact ht.committed.journal
      · rintro xs hxs x hx
        obtain ⟨ys, -, rfl⟩ := map_eq_some_iff.1 hxs
        cases hx

theorem axfrFinalize_prov : Carries k (Prov R) (axfrFinalize env) := by
  refine Carries.get_bind (fun p hp => Carries.bind (Keeps.lift ?_) (fun _ => Carries.modify (fun q => ⟨rfl, rfl⟩)))
  have hnew := hp.2.held.loading
  refine (replaceCheck_prov hnew p.loaded).bind (fun _ => Keeps.update (fun s hs => ⟨⟨hnew, hs.committed.journal⟩, ?_⟩))
  exact ⟨rfl, rfl, hs.held.ver, hs.held.load, hs.held.diff, hs.held.txn⟩

theorem Carries.prov {α : Type} {x : RecvM α} (h : ∀ z log, Within (Came R) z → Carries k (Held R z log) x) :
    Carries k (Prov R) x := by
  rintro p ⟨hk, hp⟩
  have hzone := hp.committed.zone
  have hlog := hp.committed.journal
  have hx := h _ p.xfr.journalfile hzone p ⟨hk, hp.held⟩
  refine ⟨fun a q hq => ?_, fun e q hq => ?_⟩
  · exact ⟨(hx.1 a q hq).1, Prov.of_held hzone hlog (hx.1 a q hq).2⟩
  · exact ⟨(hx.2 e q hq).1, Prov.of_held hzone hlog (hx.2 e q hq).2⟩

theorem recvTsig_prov (msg : Message) : Carries k (Prov R) (recvTsig msg) := by
  refine Carries.ite (fun _ => ?_) (fun _ => Carries.ite (fun _ => ?_) (fun _ => Carries.pure _))
  · refine Carries.bind (Carries.modify (fun p => ⟨rfl, rfl⟩)) (fun _ => Carries.bind (Keeps.lift Keeps.call) (fun _ => ?_))
    exact Carries.modify (fun p => ⟨rfl, rfl⟩)
  · refine Carries.get_bind (fun p hp => Carries.bind (Carries.modify (fun p => ⟨rfl, rfl⟩)) (fun _ => ?_))
    exact Carries.ite (fun _ => Carries.fail _) (fun _ => Carries.pure _)

theorem recvTail_prov (m : Received) (msg : Message) : Carries k (Prov R) (recvTail env m msg) := by
  refine (recvTsig_prov msg).bind (fun _ => Carries.bind (Carries.modify (fun p => ⟨rfl, rfl⟩)) (fun _ => ?_))
  refine Carries.get_bind (fun p hp => ?_)
  by_cases hst : p.xfr.state = .axfrEnd
  · rw [hst]
    exact Carries.bind axfrFinalize_prov (fun _ => Carries.prov (fun _ _ _ => recvDoneEnd_held))
  · exact Carries.prov (fun _ _ _ => recvSwitch_held m hst)

end messages

/-! ### One message -/

/-- The TSIG of the message was verified when the transfer was in this state. -/
def Verified (env : RecvEnv) (m : Received) (p : Peer) : Prop := m.tsig.isSome = true ∧ (accepted env m p).isSome = true

/-- No record of a message without TSIG completes a delta. -/
def Careful (env : RecvEnv) (m : Received) (p : Peer) : Prop :=
  m.tsig = none → ∀ q, accepted env m p = some q → Guarded env.xfrin (fun s r => ¬Completes s r) m.answer q.world

section message

variable {env : RecvEnv} {R : Rr → Prop} {z : Zone} {log : Option (List Txn)} {k : Option TsigKey} {m : Received} {p : Peer}

theorem accepted_of_head {msg : Message} {q : Peer} (hp : p.aborted = false) (h : recvHead env m p = .ok (some msg) q) :
    accepted env m p = some q := by
  rw [accepted, hp, if_neg Bool.false_ne_true, h]

theorem guarded_take {e : Env} {C : Ctx → Rr → Prop} :
    ∀ {rs : List Rr} {w : World} (n : ℕ), Guarded e C rs w → Guarded e C (rs.take n) w
  | [], _, n, _ => by
    rw [take_nil]
    trivial
  | _ :: _, _, 0, _ => trivial
  | _ :: _, _, n + 1, h => ⟨h.1, fun w' hw' => guarded_take n (h.2 w' hw')⟩
theorem recvRecords_held (hz : Within (Came R) z) (hrs : ∀ r ∈ m.answer, R r) (hp : At k (Held R z log) p)
    (hlive : p.aborted = false) (hv : ¬Verified env m p) (hc : Careful env m p) (n : ℕ) :
    Triple (fun q => q = p) (recvRecords env m n) (fun o q => At k (Held R z log) q ∧ ∀ msg, o = some msg →
        m.tsig = none ∧ msg = ((p.message m).checksig m.sigenv env.algNumber).1) (fun _ => At k (Held R z log)) := by
  have hhead : Triple (fun q => q = p) (recvHead env m)
      (fun o q => At k (Held R z log) q ∧ ∀ msg, o = some msg → recvHead env m p = .ok (some msg) q)
      (fun _ => At k (Held R z log)) := by
    rintro q rfl
    have h := (recvHead_held m : Carries k (Held R z log) (recvHead env m)) q hp
    refine ⟨fun o q' hq' => ⟨h.1 o q' hq', ?_⟩, h.2⟩
    rintro msg rfl
    exact hq'
  refine Triple.bind hhead (fun o => ?_)
  cases o with
  | none =>
    refine Triple.bind (Triple.pre (Keeps.lift (Keeps.pure ())) (fun q hq => hq.1)) (fun _ => Triple.pure (fun q hq => ⟨hq, ?_⟩))
    exact fun msg h => by cases h
  | some msg =>
    have haccept : ∀ q, recvHead env m p = .ok (some msg) q → accepted env m p = some q ∧ m.tsig = none := by
      intro q hq
      have hacc := accepted_of_head hlive hq
      refine ⟨hacc, ?_⟩
      cases htsig : m.tsig with
      | none => rfl
      | some t => exact absurd ⟨by rw [htsig]; rfl, by rw [hacc]; rfl⟩ hv
    refine Triple.of_pre (fun q hq => (⟨(haccept q (hq.2 msg rfl)).2, recvHead_message (hq.2 msg rfl)⟩ :
      m.tsig = none ∧ msg = ((p.message m).checksig m.sigenv env.algNumber).1)) (fun hmsg => ?_)
    refine Triple.bind ((lift_spec (feed_held hz (fun r hr => hrs r (mem_of_mem_take hr)))).pre ?_)
      (fun _ => Triple.pure (fun q hq => ⟨hq, fun x hx => ?_⟩))
    · rintro q ⟨hq, hrun⟩
      obtain ⟨hacc, ht⟩ := haccept q (hrun msg rfl)
      exact ⟨hq.1, ⟨hq.2, fun _ _ => trivial⟩, guarded_take n (hc ht q hacc)⟩
    · cases hx
      exact hmsg

theorem handle_held {α : Type} {o : EStateM.Result Stop Peer α} (hok : ∀ a q, o = .ok a q → At k (Held R z log) q)
    (herr : ∀ e q, o = .error e q → At k (Held R z log) q) : At k (Held R z log) (handle o) := by
  cases o with
  | ok a q => exact hok a q rfl
  | error e q =>
    obtain ⟨hk, hq⟩ := herr e q rfl
    cases e with
    | result r => exact ⟨hk, hq.zone, hq.log, hq.ver, hq.load, hq.diff, fun ts hts => by cases hts⟩
    | assertion | overrun => exact ⟨hk, hq⟩

/-- A message that is not verified commits nothing. -/
theorem recvDone_held {key : TsigKey} (hz : Within (Came R) z) (hrs : ∀ r ∈ m.answer, R r)
    (hp : At (some key) (Held R z log) p) (hv : ¬Verified env m p) (hc : Careful env m p) :
    At (some key) (Held R z log) (recvDone env m p) := by
  cases hlive : p.aborted with
  | true =>
    rw [recvDone, hlive, if_pos rfl]
    exact hp
  | false =>
    rw [recvDone, hlive, if_neg Bool.false_ne_true]
    have hmessage : Triple (fun q => q = p) (recvMessage env m) (fun _ => At (some key) (Held R z log))
        (fun _ => At (some key) (Held R z log)) := by
      refine Triple.bind (recvRecords_held hz hrs hp hlive hv hc _) (fun o => ?_)
      obtain _ | msg := o
      · exact Triple.pure (fun q hq => hq.1)
      refine Triple.of_pre (fun q hq => hq.2 msg rfl) (fun hmsg => ?_)
      obtain ⟨htsig, hkey⟩ := checksig_key m.sigenv env.algNumber (show (p.message m).tsigkey = some key from hp.1)
      rw [← hmsg.2] at htsig hkey
      exact (recvTail_held m (htsig.trans hmsg.1) hkey).pre (fun q hq => hq.1)
    exact handle_held (hmessage p rfl).1 (hmessage p rfl).2

theorem recvDuring_held (hz : Within (Came R) z) (hrs : ∀ r ∈ m.answer, R r) (hp : At k (Held R z log) p)
    (hv : ¬Verified env m p) (hc : Careful env m p) (n : ℕ) : At k (Held R z log) (recvDuring env m n p) := by
  unfold recvDuring
  split
  · exact hp
  next hlive =>
    have h := recvRecords_held hz hrs hp (Bool.eq_false_iff.2 hlive) hv hc n p rfl
    split
    next o q hq => exact (h.1 o q hq).1
    next e q hq => exact h.2 e q hq

theorem recvRecords_prov (hrs : ∀ r ∈ m.answer, R r) (n : ℕ) : Carries k (Prov R) (recvRecords env m n) := by
  refine Carries.bind (Carries.prov (fun _ _ _ => recvHead_held m)) (fun o => Carries.bind ?_ (fun _ => Carries.pure _))
  exact Keeps.lift (Keeps.runIf (fun _ => feed_prov _ (fun r hr => hrs r (mem_of_mem_take hr))))

theorem recvDone_prov (hrs : ∀ r ∈ m.answer, R r) (hp : At k (Prov R) p) : At k (Prov R) (recvDone env m p) := by
  unfold recvDone
  split
  · exact hp
  have hmessage : Carries k (Prov R) (recvMessage env m) := by
    refine (recvRecords_prov hrs _).bind (fun o => ?_)
    cases o with
    | none => exact Carries.pure _
    | some msg => exact recvTail_prov m msg
  obtain ⟨hok, herr⟩ := hmessage p hp
  cases hrun : recvMessage env m p with
  | ok a q => exact hok a q hrun
  | error e q =>
    obtain ⟨hk, hq⟩ := herr e q hrun
    have hheld : At k (Held R q.xfr.zone q.xfr.journalfile) (handle (.error e q : EStateM.Result Stop Peer Unit)) :=
      handle_held (fun a q' h => by cases h) (fun e' q' h => by cases h; exact ⟨hk, hq.held⟩)
    exact ⟨hheld.1, Prov.of_held hq.committed.zone hq.committed.journal hheld.2⟩

theorem recvDuring_prov (hrs : ∀ r ∈ m.answer, R r) (hp : At k (Prov R) p) (n : ℕ) :
    At k (Prov R) (recvDuring env m n p) := by
  unfold recvDuring
  split
  · exact hp
  obtain ⟨hok, herr⟩ := (recvRecords_prov hrs n : Carries k (Prov R) (recvRecords env m n)) p hp
  split
  next o q hq => exact hok o q hq
  next e q hq => exact herr e q hq

end message

/-! ### Every transfer -/

/-- A transfer that has received nothing. -/
structure Fresh (p : Peer) : Prop where
  ver : p.xfr.ver = none
  diff : p.xfr.diff = []
  journal : p.xfr.journal = none
  db : p.xfr.db.loading = none

/-- The messages of a run are careful. -/
def Safe (env : RecvEnv) : List Received → Peer → Prop
  | [], _ => True
  | m :: ms, p => Careful env m p ∧ Safe env ms (recvDone env m p)

/-- No message of a run is verified. -/
def Unverified (env : RecvEnv) : List Received → Peer → Prop
  | [], _ => True
  | m :: ms, p => ¬Verified env m p ∧ Unverified env ms (recvDone env m p)

/-- The records that the zone and its journal held at the start. -/
def Initially (env : RecvEnv) (p : Peer) (x : Rr) : Prop :=
  x ∈ zoneRrs env p.xfr.zone ∨ ∃ log, p.xfr.journalfile = some log ∧ ∃ y ∈ log, ∃ t ∈ y.tuples, x = rrOf t

/-- The record came in a message that is or precedes one whose TSIG has been verified. -/
def Covered (env : RecvEnv) (p : Peer) (ms : List Received) (x : Rr) : Prop :=
  ∃ a m b, ms = a ++ m :: b ∧ Verified env m (recvAll env a p) ∧ ∃ m' ∈ a ++ [m], x ∈ m'.answer

/-- The records that may be in the zone. -/
def Known (env : RecvEnv) (p : Peer) (ms : List Received) (x : Rr) : Prop := Initially env p x ∨ Covered env p ms x

def Peer.committed (p : Peer) : Zone × Option (List Txn) := (p.xfr.zone, p.xfr.journalfile)

/-- No change of the zone without a TSIG: between two messages and at every moment in one, the zone and its journal hold
the records of the start and those that a verified TSIG covers; what comes behind the last verified TSIG may be replaced. -/
structure Authentic (env : RecvEnv) (p : Peer) (ms : List Received) : Prop where
  between : ∀ a b, ms = a ++ b → Committed (Known env p a) (recvAll env a p).xfr
  during : ∀ a m b n, ms = a ++ m :: b → Committed (Known env p (a ++ [m])) (recvDuring env m n (recvAll env a p)).xfr
  replaced : ∀ a b c, ms = a ++ b → Unverified env b (recvAll env a p) → Unverified env c (recvAll env a p) →
    Safe env c (recvAll env a p) → (recvAll env (a ++ c) p).committed = (recvAll env ms p).committed

section run

variable {env : RecvEnv} {p : Peer} {key : TsigKey}

/-- The records of the start and those of the messages. -/
def Received.upTo (env : RecvEnv) (p : Peer) (ms : List Received) (x : Rr) : Prop :=
  Initially env p x ∨ ∃ m ∈ ms, x ∈ m.answer

theorem recvAll_snoc (a : List Received) (m : Received) (p : Peer) :
    recvAll env (a ++ [m]) p = recvDone env m (recvAll env a p) := by
  rw [recvAll, foldl_append]
  rfl

theorem safe_append : ∀ {a b : List Received} {p : Peer},
    Safe env (a ++ b) p ↔ Safe env a p ∧ Safe env b (recvAll env a p)
  | [], _, _ => (and_iff_right trivial).symm
  | m :: a, b, p => by
    have ih : Safe env (a ++ b) (recvDone env m p) ↔ _ := safe_append
    exact (and_congr_right (fun _ => ih)).trans and_assoc.symm

theorem Covered.snoc {a : List Received} (m : Received) {x : Rr} (h : Covered env p a x) : Covered env p (a ++ [m]) x := by
  obtain ⟨c, m', b, rfl, hv, hx⟩ := h
  exact ⟨c, m', b ++ [m], by rw [append_assoc, cons_append], hv, hx⟩

theorem Known.snoc {a : List Received} (m : Received) {x : Rr} (h : Known env p a x) : Known env p (a ++ [m]) x :=
  h.imp id (Covered.snoc m)

theorem Known.of_verified {a : List Received} {m : Received} (hv : Verified env m (recvAll env a p)) {x : Rr}
    (h : Received.upTo env p (a ++ [m]) x) : Known env p (a ++ [m]) x := by
  obtain h | ⟨m', hm', hx⟩ := h
  · exact .inl h
  · exact .inr ⟨a, m, [], rfl, hv, m', hm', hx⟩

theorem Known.upTo {a : List Received} {x : Rr} (h : Known env p a x) : Received.upTo env p a x := by
  obtain h | ⟨c, m, b, rfl, -, m', hm', hx⟩ := h
  · exact .inl h
  refine .inr ⟨m', ?_, hx⟩
  rw [append_cons]
  exact mem_append_left b hm'

theorem upTo_snoc {a : List Received} (m : Received) {x : Rr} (h : Received.upTo env p a x) :
    Received.upTo env p (a ++ [m]) x := by
  obtain h | ⟨m', hm', hx⟩ := h
  · exact .inl h
  · exact .inr ⟨m', mem_append_left _ hm', hx⟩

/-- What is committed is covered, and what waits has been received. -/
structure Sound (env : RecvEnv) (p : Peer) (key : TsigKey) (a : List Received) (q : Peer) : Prop where
  tsigkey : q.tsigkey = some key
  committed : Committed (Known env p a) q.xfr
  held : Held (Received.upTo env p a) q.xfr.zone q.xfr.journalfile q.xfr

theorem Sound.start (hfresh : Fresh p) (hk : p.tsigkey = some key) : Sound env p key [] p where
  tsigkey := hk
  committed := by
    constructor
    · intro k s hf r hr
      refine ⟨⟨k.name, s.ttl, env.rdclass, k.type.base, r⟩, .inl (.inl ?_), rfl, rfl, rfl⟩
      refine mem_flatMap.2 ⟨k, ?_, ?_⟩
      · obtain ⟨e, he, -⟩ := map_eq_some_iff.1 hf
        have hkey := find?_some he
        rw [decide_eq_true_eq] at hkey
        exact mem_dedup.2 (mem_map.2 ⟨e, mem_of_find?_eq_some he, hkey⟩)
      · rw [hf]
        exact mem_map.2 ⟨r, hr, rfl⟩
    · intro log hlog y hy t ht
      exact ⟨rrOf t, .inl (.inr ⟨log, hlog, y, hy, t, ht, rfl⟩), (Name.lower_lower t.name).symm, rfl, rfl⟩
  held := by
    refine ⟨rfl, rfl, fun v hv => ?_, fun y hy => ?_, fun t ht => ?_, fun ts hts => ?_⟩
    · rw [hfresh.ver] at hv
      cases hv
    · have hdb := hfresh.db
      rw [hy] at hdb
      cases hdb
    · rw [hfresh.diff] at ht
      cases ht
    · rw [hfresh.journal] at hts
      cases hts

/-- All that the transfer has was received. -/
theorem Sound.prov {a : List Received} {q : Peer} (h : Sound env p key a q) (m : Received) :
    At (some key) (Prov (Received.upTo env p (a ++ [m]))) q :=
  ⟨h.tsigkey, h.committed.mono (fun _ hx => upTo_snoc m hx.upTo), h.held.mono (fun _ => upTo_snoc m)⟩

theorem answer_upTo (a : List Received) (m : Received) : ∀ r ∈ m.answer, Received.upTo env p (a ++ [m]) r :=
  fun _ hr => .inr ⟨m, mem_append_right a mem_cons_self, hr⟩

theorem Sound.unverified {a : List Received} {q : Peer} (h : Sound env p key a q) {m : Received} {q' : Peer}
    (hq' : At (some key) (Held (Received.upTo env p (a ++ [m])) q.xfr.zone q.xfr.journalfile) q') :
    Sound env p key (a ++ [m]) q' where
  tsigkey := hq'.1
  committed := by
    have hc := h.committed.mono (fun _ => Known.snoc m)
    refine ⟨?_, ?_⟩
    · rw [hq'.2.zone]
      exact hc.zone
    · rw [hq'.2.log]
      exact hc.journal
  held := by
    obtain ⟨hz, hl⟩ := And.intro hq'.2.zone hq'.2.log
    rw [hz, hl]
    exact hq'.2

theorem Sound.verified {a : List Received} {m : Received} (hv : Verified env m (recvAll env a p)) {q' : Peer}
    (hq' : At (some key) (Prov (Received.upTo env p (a ++ [m]))) q') : Sound env p key (a ++ [m]) q' where
  tsigkey := hq'.1
  committed := hq'.2.committed.mono (fun _ => Known.of_verified hv)
  held := hq'.2.held

variable {a : List Received} {m : Received}

theorem Sound.during (h : Sound env p key a (recvAll env a p)) (hc : Careful env m (recvAll env a p)) (n : ℕ) :
    Sound env p key (a ++ [m]) (recvDuring env m n (recvAll env a p)) := by
  have hp := h.prov m
  by_cases hv : Verified env m (recvAll env a p)
  · exact Sound.verified hv (recvDuring_prov (answer_upTo a m) hp n)
  · exact h.unverified (recvDuring_held hp.2.committed.zone (answer_upTo a m) ⟨hp.1, hp.2.held⟩ hv hc n)

theorem Sound.done (h : Sound env p key a (recvAll env a p)) (hc : Careful env m (recvAll env a p)) :
    Sound env p key (a ++ [m]) (recvAll env (a ++ [m]) p) := by
  rw [recvAll_snoc]
  have hp := h.prov m
  by_cases hv : Verified env m (recvAll env a p)
  · exact Sound.verified hv (recvDone_prov (answer_upTo a m) hp)
  · exact h.unverified (recvDone_held hp.2.committed.zone (answer_upTo a m) ⟨hp.1, hp.2.held⟩ hv hc)

theorem sound_run (hfresh : Fresh p) (hk : p.tsigkey = some key) :
    ∀ a : List Received, Safe env a p → Sound env p key a (recvAll env a p) := by
  intro a
  induction a using reverseRecOn with
  | nil => exact fun _ => Sound.start hfresh hk
  | append_singleton a m ih =>
    intro hs
    obtain ⟨ha, hm⟩ := safe_append.1 hs
    exact (ih ha).done hm.1

theorem committed_unverified (hfresh : Fresh p) (hk : p.tsigkey = some key) : ∀ (b a : List Received), Safe env a p →
    Safe env b (recvAll env a p) → Unverified env b (recvAll env a p) →
    (recvAll env (a ++ b) p).committed = (recvAll env a p).committed
  | [], a, _, _, _ => by rw [append_nil]
  | m :: b, a, ha, hs, hu => by
    have ha' : Safe env (a ++ [m]) p := safe_append.2 ⟨ha, hs.1, trivial⟩
    have hp := (sound_run hfresh hk a ha).prov m
    have hstep := recvDone_held hp.2.committed.zone (answer_upTo a m) ⟨hp.1, hp.2.held⟩ hu.1 hs.1
    have ih := committed_unverified hfresh hk b (a ++ [m]) ha'
    rw [recvAll_snoc] at ih
    rw [append_cons, ih hs.2 hu.2]
    exact Prod.ext hstep.2.zone hstep.2.log

/-- A transfer with a key in which no message without TSIG completes a delta. -/
theorem no_unauthenticated_change (env : RecvEnv) {p : Peer} (hfresh : Fresh p) (hk : p.tsigkey.isSome = true)
    (ms : List Received) (hsafe : Safe env ms p) : Authentic env p ms := by
  obtain ⟨key, hkey⟩ := isSome_iff_exists.1 hk
  refine ⟨?_, ?_, ?_⟩
  · rintro a b rfl
    exact (sound_run hfresh hkey a (safe_append.1 hsafe).1).committed
  · rintro a m b n rfl
    obtain ⟨ha, hm⟩ := safe_append.1 hsafe
    exact ((sound_run hfresh hkey a ha).during hm.1 n).committed
  · rintro a b c rfl hb hc hsc
    obtain ⟨ha, hsb⟩ := safe_append.1 hsafe
    rw [committed_unverified hfresh hkey b a ha hsb hb, committed_unverified hfresh hkey c a ha hsc hc]

end run

/-! ### A signed transfer of the root -/

/-- The zone keeps no differences of its own. -/
def rootRecvEnv : RecvEnv where
  xfrin := rootEnv
  algNumber _ := 0
  ixfrFromDiffs := false
  slave := true
  keyzone := false

/-- A transfer that has sent its request with a TSIG. -/
def signedPeer : Peer where
  world := ⟨rootCtx, []⟩
  id := 7
  tsigkey := some sharedKey
  lasttsig := some ⟨hmacSha256Name, 1500000000, 300, replicate 32 1, 7, 0, []⟩
  tsigctx := none
  sincetsig := 0
  nmsg := 0
  loaded := true
  shuttingdown := false
  aborted := false

/-- A record in a message. -/
def rrWire (r : Rr) : Bytes :=
  r.name.ndata ++ put16 r.type.toNat ++ put16 r.rdclass.toNat ++ put32 r.ttl ++ put16 r.rdata.length ++ r.rdata

/-- A TSIG record in a message. -/
def tsigWire (t : TsigRR) : Bytes :=
  t.name.ndata ++ put16 250 ++ put16 t.rdclass ++ put32 t.ttl ++
    put16 (t.rdata.algorithm.ndata.length + 16 + t.rdata.signature.length + t.rdata.other.length) ++
    t.rdata.algorithm.ndata ++ put48 t.rdata.timesigned ++ put16 t.rdata.fudge ++ put16 t.rdata.signature.length ++
    t.rdata.signature ++ put16 t.rdata.originalid ++ put16 t.rdata.error ++ put16 t.rdata.other.length ++ t.rdata.other

/-- A message of the response, as it arrives. -/
def responseOf (answer : List Rr) (tsig : Option TsigRR) : Received where
  parse := .success
  rcode := 0
  id := 7
  aa := true
  response := true
  answer := answer
  saved := put16 7 ++ put16 0x8400 ++ put16 0 ++ put16 answer.length ++ put16 0 ++ put16 tsig.toList.length ++
    answer.flatMap rrWire ++ tsig.toList.flatMap tsigWire
  sigstart := 12 + (answer.flatMap rrWire).length
  tsig := tsig
  sig0 := none
  sigenv := ⟨hmacDst sumMac, 1500000200, .success, some ⟨some [sharedKey], none, fun _ => none, fun _ _ => none⟩⟩
  requery := none

/-- The first message announces serial 3 and starts the delta from serial 1. -/
def firstMessage : Received :=
  responseOf [soaRr 3, soaRr 1]
    (some ⟨keyName, 255, 0, hmacSha256Name, 1500000100, 300, replicate 32 161, 7, 0, []⟩)

theorem signedPeer_fresh : Fresh signedPeer := ⟨rfl, rfl, rfl, rfl⟩

/-- The second message has no TSIG.  Its second SOA record completes the delta from serial 1 to serial 2, and the zone has
serial 2 although no TSIG has covered the record. -/
theorem delta_committed_without_tsig : Fresh signedPeer ∧ signedPeer.tsigkey.isSome = true ∧
    ¬Authentic rootRecvEnv signedPeer [firstMessage, responseOf [soaRr 2, soaRr 2] none] := by
  refine ⟨signedPeer_fresh, rfl, fun h => ?_⟩
  have hzone := (h.between [firstMessage, responseOf [soaRr 2, soaRr 2] none] [] rfl).zone
  have hfind : ((recvAll rootRecvEnv [firstMessage, responseOf [soaRr 2, soaRr 2] none] signedPeer).xfr.zone.find
      (soaKey ⟨[[]]⟩)).map (fun s => s.rdata.1) = some [(soaRr 2).rdata] := by decide +kernel
  obtain ⟨s, hs, hrdata⟩ := map_eq_some_iff.1 hfind
  obtain ⟨x, hx, -, -, hxr⟩ := hzone _ s hs (soaRr 2).rdata (by rw [hrdata]; exact mem_singleton_self _)
  -- the record is neither an old one nor in the first message
  obtain (hx | ⟨log, hlog, y, hy, -⟩) | ⟨a, m, b, hms, hv, m', hm', hx⟩ := hx
  · have hold : ∀ y ∈ zoneRrs rootRecvEnv signedPeer.xfr.zone, y.rdata ≠ (soaRr 2).rdata := by decide +kernel
    exact hold x hx hxr
  · cases hlog
    cases hy
  · have hfirst : ∀ y ∈ firstMessage.answer, y.rdata ≠ (soaRr 2).rdata := by decide +kernel
    cases a with
    | nil =>
      cases hms
      rw [mem_singleton.1 hm'] at hx
      exact hfirst x hx hxr
    | cons m1 a =>
      cases a with
      | nil =>
        cases hms
        cases hv.1
      | cons m2 a =>
        have hlen := congrArg List.length hms
        simp at hlen

instance (s : Ctx) (r : Rr) : Decidable (Completes s r) :=
  decidable_of_iff (s.state = .ixfrAdd ∧ r.type = soa ∧
      (soaGetserial r.rdata = .ok s.endSerial ∨ soaGetserial r.rdata = .ok s.currentSerial)) (by
    refine and_congr_right (fun _ => and_congr_right (fun _ => ?_))
    constructor
    · rintro (h | h)
      · exact ⟨_, h, .inl rfl⟩
      · exact ⟨_, h, .inr rfl⟩
    · rintro ⟨n, h, rfl | rfl⟩
      · exact .inl h
      · exact .inr h)

instance (env : RecvEnv) (m : Received) (p : Peer) : Decidable (Careful env m p) :=
  decidable_of_iff (m.tsig = none → ∀ q ∈ accepted env m p, Guarded env.xfrin (fun s r => ¬Completes s r) m.answer q.world)
    Iff.rfl

/-- Whether a run is safe is found out by running it. -/
def decideSafe (env : RecvEnv) : ∀ (ms : List Received) (p : Peer), Decidable (Safe env ms p)
  | [], _ => .isTrue trivial
  | m :: ms, p =>
    have : Decidable (Safe env ms (recvDone env m p)) := decideSafe env ms (recvDone env m p)
    inferInstanceAs (Decidable (_ ∧ _))

instance (env : RecvEnv) (ms : List Received) (p : Peer) : Decidable (Safe env ms p) := decideSafe env ms p

/-- The same transfer with the delta still open at the end of the second message. -/
theorem no_unauthenticated_change_root : Safe rootRecvEnv [firstMessage, responseOf [soaRr 2] none] signedPeer ∧
    (accepted rootRecvEnv firstMessage signedPeer).isSome = true ∧
    Authentic rootRecvEnv signedPeer [firstMessage, responseOf [soaRr 2] none] := by
  have hsafe : Safe rootRecvEnv [firstMessage, responseOf [soaRr 2] none] signedPeer := by decide +kernel
  exact ⟨hsafe, by decide +kernel, no_unauthenticated_change rootRecvEnv signedPeer_fresh rfl _ hsafe⟩

end Bind9.Xfrin
