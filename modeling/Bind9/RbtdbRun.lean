import Mathlib.Data.List.Basic
import Mathlib.Order.Bounds.Basic
import Mathlib.Tactic
import Bind9.RbtdbStep

/-! # Snapshot isolation

Runs of allowed calls from a loaded zone.  No `INSIST` fires, an open version shows what it showed
when it was committed, and a rolled-back writer leaves nothing but a used serial behind
(`snapshot_isolation`). -/

namespace Bind9.Rbtdb

open List
open Option hiding mem_map mem_map_of_mem

variable {ops : RdataOps} {db db' : Db}

/-! ### Loading -/

inductive Loaded (ops : RdataOps) : Db → Prop where
  | create : Loaded ops create
  | add {db db' : Db} {mem : Bool} {n : ℕ} {type : RdType} {ttl : ℕ} {rdata : Slab} {r : Result} :
      Loaded ops db → loadingAddrdataset ops db mem n type ttl rdata = .ok (db', r) → Loaded ops db'

/-- Without versions, a chain is one header of serial one. -/
structure Plain (data : List Chain) : Prop where
  single : ∀ c ∈ data, c.down = [] ∧ c.top.serial = 1 ∧ c.top.ignore = false
  types : (data.map (fun c => c.top.type)).Nodup

theorem Plain.replace {data : List Chain} {t : RdType} {h : Header} (hp : Plain data) (ht : h.type = t)
    (hs : h.serial = 1) (hi : h.ignore = false) : Plain (replaceChain t ⟨h, []⟩ data) := by
  refine ⟨fun c hc => ?_, ?_⟩
  · obtain rfl | ⟨hc, -⟩ := mem_replaceChain hc
    · exact ⟨rfl, hs, hi⟩
    · exact hp.single c hc
  · rw [types_replaceChain ht]
    exact hp.types

theorem Plain.cons {data : List Chain} {h : Header} (hp : Plain data) (hf : findChain h.type data = none)
    (hs : h.serial = 1) (hi : h.ignore = false) : Plain (⟨h, []⟩ :: data) := by
  refine ⟨fun c hc => ?_, nodup_cons.2 ⟨fun hm => ?_, hp.types⟩⟩
  · obtain rfl | hc := mem_cons.1 hc
    · exact ⟨rfl, hs, hi⟩
    · exact hp.single c hc
  · obtain ⟨d, hd, hdt⟩ := mem_map.1 hm
    exact find?_eq_none.1 hf d hd (by simpa using hdt)

theorem plain_addTo {node : Node} {c : Chain} {h : Header} (hp : Plain node.data)
    (hc : findChain h.type node.data = some c) (hs : h.serial = 1) (hi : h.ignore = false) :
    ∃ node' r, node.addTo 1 c h true = .ok (node', false, r) ∧ Plain node'.data ∧ node'.references = node.references := by
  obtain ⟨hmem, hct⟩ := findChain_some hc
  have hp' := hp.replace hct.symm hs hi
  have hrun : node.addTo 1 c h true =
      .ok (Node.finish { node with data := replaceChain c.top.type ⟨h, []⟩ node.data } 1 false) := by
    rw [Node.addTo, insist_true (by simp [(hp.single c hmem).2.1]), ok_bind]
    rfl
  exact ⟨_, _, hrun, hp', rfl⟩

theorem plain_add (ops : RdataOps) (mem : Bool) {node : Node} (hp : Plain node.data) (t : RdType) (ttl : ℕ) (s : Slab) :
    ∃ node' r, node.add ops mem 1 ⟨1, ttl, t, false, some s⟩ ⟨true, false, false⟩ true = .ok (node', false, r) ∧
      Plain node'.data ∧ node'.references = node.references := by
  rw [Node.add]
  cases hc : findChain t node.data with
  | none => exact ⟨_, _, rfl, hp.cons hc rfl rfl, rfl⟩
  | some c =>
    obtain ⟨hmem, hct⟩ := findChain_some hc
    obtain ⟨hdown, hser, hign⟩ := hp.single c hmem
    have hh : c.header = some c.top := by
      rw [Chain.header, Chain.headers, find?_cons_of_pos (by simp [hign])]
    simp only [hh]
    obtain _ | old := c.top.rdata
    · exact plain_addTo hp hc rfl rfl
    simp only [if_true]
    rw [insist_true (by simp [hser]), ok_bind]
    cases mergeRdata ops mem ⟨true, false, false⟩ c.top.type c.top.ttl ttl old s with
    | error r => exact ⟨node, r, rfl, hp, rfl⟩
    | ok merged => exact plain_addTo (h := ⟨1, ttl, t, false, some merged⟩) hp hc rfl rfl

/-- A loaded database: plain chains and no references. -/
structure Fresh (db : Db) : Prop where
  nodes : ∀ n, Plain (db.nodes n).data
  rest : db = { create with nodes := db.nodes }

theorem Loaded.fresh (h : Loaded ops db) : Fresh db := by
  induction h with
  | create => exact ⟨fun n => ⟨fun c hc => absurd hc not_mem_nil, nodup_nil⟩, rfl⟩
  | @add db db' mem n type ttl rdata r _ hrun ih =>
    have hcur : db.currentSerial = 1 := by
      rw [ih.rest]
      rfl
    obtain ⟨node', r', hadd, hp, -⟩ := plain_add ops mem (ih.nodes n) type ttl rdata
    have hadd' : (db.nodes n).add ops mem db.currentSerial ⟨1, ttl, type, false, some rdata⟩
        ⟨true, false, false⟩ true = .ok (node', false, r') := by
      rw [hcur]
      exact hadd
    rw [loadingAddrdataset, hadd', ok_bind] at hrun
    obtain ⟨rfl, -⟩ := Prod.mk.inj (Except.ok.inj hrun)
    refine ⟨fun m => ?_, ?_⟩
    · simp only [Function.update_apply]
      split
      · exact hp
      · exact ih.nodes m
    · exact congrArg (fun d : Db => { d with nodes := Function.update db.nodes n node' }) ih.rest

theorem Fresh.inv (h : Fresh db) : Inv db := by
  rw [h.rest]
  have hone : ∀ {n x}, Stands (db.nodes n).data x → x.serial = 1 ∧ x.ignore = false := by
    rintro n x ⟨c, hc, hx⟩
    obtain ⟨hd, hs, hi⟩ := (h.nodes n).single c hc
    rw [Chain.headers, hd] at hx
    obtain rfl := mem_singleton.1 hx
    exact ⟨hs, hi⟩
  refine ⟨pairwise_singleton _ _, ⟨_, [], rfl, rfl⟩, ⟨[], _, rfl, rfl, rfl⟩, fun v hv => ?_, (fun w hw => by cases hw),
    by simp [Db.limit, create], by simp [create], fun n => Nat.zero_le _, fun n => ?_⟩
  · obtain rfl := mem_singleton.1 hv
    exact ⟨rfl, Nat.one_pos⟩
  · refine ⟨⟨fun c hc => ?_, (h.nodes n).types⟩, fun x hx => ?_, fun x hx _ => .inl ?_, (fun w hw => by cases hw),
      fun x hx _ _ => .inl ?_, (fun w hw => by cases hw)⟩
    · obtain ⟨hd, -, -⟩ := (h.nodes n).single c hc
      refine ⟨⟨?_, fun a ha b hb _ => ?_⟩, fun x hx => ?_⟩
      · rw [Chain.headers, hd]
        exact pairwise_singleton _ _
      · rw [(hone ⟨c, hc, ha⟩).2, (hone ⟨c, hc, hb⟩).2]
      · rw [Chain.headers, hd] at hx
        rw [mem_singleton.1 hx]
    · rw [(hone hx).1]
      simp [Db.limit, create]
    · rw [(hone hx).1]
      exact Nat.le_refl _
    · rw [(hone hx.stands).1]
      exact Nat.le_refl _

/-! ### Runs -/

/-- Allowed calls, one after the other. -/
inductive Run (ops : RdataOps) : Db → List Op → Db → Prop where
  | nil (db : Db) : Run ops db [] db
  | cons {db db1 db' : Db} {op : Op} {l : List Op} {a : Answer} :
      Allowed db.spec op → step ops db op = .ok (db1, a) → Run ops db1 l db' → Run ops db (op :: l) db'

/-- The databases that allowed calls make of a loaded one. -/
def Reach (ops : RdataOps) (db : Db) : Prop := ∃ db0 l, Loaded ops db0 ∧ Run ops db0 l db

/-- The calls on snapshots. -/
noncomputable def Spec.run (ops : RdataOps) (sp : Spec) : List Op → Spec
  | [] => sp
  | op :: l => Spec.run ops (sp.step ops op).1 l

/-- One call that returns. -/
theorem step_ok (hi : Inv db) {op : Op} {a : Answer} (ha : Allowed db.spec op)
    (hs : step ops db op = .ok (db', a)) : Inv db' ∧ db.spec.step ops op = (db'.spec, a) := by
  obtain ⟨db1, a1, hrun, hinv, hsp⟩ | ⟨herr, -, -⟩ := (step_spec hi ha : Steps ops db op)
  · rw [hrun] at hs
    obtain ⟨rfl, rfl⟩ := Prod.mk.inj (Except.ok.inj hs)
    exact ⟨hinv, hsp⟩
  · rw [herr] at hs
    cases hs

variable {l : List Op}

theorem Run.spec (hrun : Run ops db l db') : Inv db → Inv db' ∧ db'.spec = db.spec.run ops l := by
  induction hrun with
  | nil db => exact fun hi => ⟨hi, rfl⟩
  | cons ha hs _ ih =>
    intro hi
    obtain ⟨hi1, hsp⟩ := step_ok hi ha hs
    obtain ⟨hi', heq⟩ := ih hi1
    refine ⟨hi', ?_⟩
    rw [heq, Spec.run, hsp]

theorem Reach.inv (h : Reach ops db) : Inv db := by
  obtain ⟨db0, l, hload, hrun⟩ := h
  exact (hrun.spec hload.fresh.inv).1

/-! ### Snapshots stay -/

theorem opened_step (sp : Spec) (op : Op) {s' : Snapshot} (hs : s' ∈ (sp.step ops op).1.opened) :
    (∃ s ∈ sp.opened, s.serial = s'.serial ∧ s.view = s'.view) ∨
      ∃ w, sp.writer = some w ∧ w.serial = s'.serial ∧ w.view = s'.view := by
  have hsame : ∀ {s'}, s' ∈ sp.opened → ∃ s ∈ sp.opened, s.serial = s'.serial ∧ s.view = s'.view :=
    fun h => ⟨_, h, rfl, rfl⟩
  have hacq : ∀ {v s'}, s' ∈ sp.opened.map (Spec.acquire v) → ∃ s ∈ sp.opened, s.serial = s'.serial ∧ s.view = s'.view := by
    intro v s' h
    obtain ⟨s, hm, rfl⟩ := mem_map.1 h
    refine ⟨s, hm, ?_⟩
    unfold Spec.acquire
    split <;> exact ⟨rfl, rfl⟩
  have hrel : ∀ {v s'}, s' ∈ sp.opened.filterMap (Spec.release v) →
      ∃ s ∈ sp.opened, s.serial = s'.serial ∧ s.view = s'.view := by
    intro v s' h
    obtain ⟨s, hm, hr⟩ := mem_filterMap.1 h
    refine ⟨s, hm, ?_⟩
    unfold Spec.release at hr
    split at hr
    · split at hr
      · obtain rfl := some_inj.1 hr
        exact ⟨rfl, rfl⟩
      · cases hr
    · obtain rfl := some_inj.1 hr
      exact ⟨rfl, rfl⟩
  have hwrite : ∀ mem n f, (sp.write mem n f).1.opened = sp.opened := by
    intro mem n f
    unfold Spec.write
    split
    · rfl
    · split <;> rfl
  cases op with
  | currentversion | attachversion v => exact .inl (hacq hs)
  | newversion mem =>
    refine .inl (hsame ?_)
    rw [Spec.step] at hs
    split at hs
    · exact hs
    · split at hs <;> exact hs
  | closeversion v commit =>
    rw [Spec.step] at hs
    cases hw : sp.writer with
    | none =>
      rw [hw] at hs
      exact .inl (hrel hs)
    | some w =>
      rw [hw] at hs
      simp only at hs
      split at hs
      · simp only [Spec.closeWriter] at hs
        split at hs
        · exact .inl (hsame hs)
        split at hs
        · obtain rfl | hs := mem_cons.1 hs
          · exact .inr ⟨w, rfl, rfl, rfl⟩
          · exact .inl (hrel hs)
        · exact .inl (hsame hs)
      · exact .inl (hrel hs)
  | addrdataset mem n type ttl rdata o | subtractrdataset mem n type ttl rdata exact =>
    refine .inl (hsame ?_)
    rw [Spec.step] at hs
    split at hs
    · exact hs
    · rwa [hwrite] at hs
  | deleterdataset mem n type =>
    refine .inl (hsame ?_)
    rw [Spec.step] at hs
    split at hs
    · exact hs
    split at hs
    · exact hs
    split at hs
    · exact hs
    · rwa [hwrite] at hs
  | findrdataset v n type | attachnode n | detachnode n => exact .inl (hsame hs)

variable {v : ℕ}

theorem head_filterMap_release {sp : Spec} (h : ∀ s ∈ sp.opened, sp.current = some s.serial → s.serial = v →
    1 < s.references) : (sp.opened.filterMap (Spec.release v)).head?.map Snapshot.serial = sp.current := by
  rw [Spec.current]
  cases hop : sp.opened with
  | nil => rfl
  | cons s ss =>
    have hcur : sp.current = some s.serial := by
      rw [Spec.current, hop]
      rfl
    by_cases hv : s.serial = v
    · have hr := h s (by rw [hop]; exact mem_cons_self) hcur hv
      have : Spec.release v s = some { s with references := s.references - 1 } := by
        rw [Spec.release, if_pos hv, if_pos hr]
      rw [filterMap_cons, this]
      rfl
    · rw [filterMap_cons, release_ne hv]
      rfl

theorem current_step (ops : RdataOps) {sp : Spec} {op : Op} (ha : Allowed sp op)
    (hu : ∀ x ∈ sp.opened, ∀ y ∈ sp.opened, x.serial = y.serial → x = y) :
    (sp.step ops op).1.current = sp.current ∨ ∃ w, sp.writer = some w ∧ (sp.step ops op).1.current = some w.serial := by
  have hacq : ∀ v, (sp.opened.map (Spec.acquire v)).head?.map Snapshot.serial = sp.current := by
    intro v
    rw [Spec.current]
    cases sp.opened with
    | nil => rfl
    | cons s ss =>
      simp only [map_cons, head?_cons, map_some, Spec.acquire]
      split <;> rfl
  have hwrite : ∀ mem n f, (sp.write mem n f).1.current = sp.current := by
    intro mem n f
    unfold Spec.write
    split
    · rfl
    · split <;> rfl
  cases op with
  | currentversion => exact .inl (hacq _)
  | attachversion v => exact .inl (hacq v)
  | newversion mem =>
    refine .inl ?_
    rw [Spec.step]
    split
    · rfl
    split
    · rfl
    · next hop => rw [Spec.current, Spec.current, hop]
  | closeversion v commit =>
    have hread : (∀ w, sp.writer = some w → w.serial ≠ v) →
        (sp.opened.filterMap (Spec.release v)).head?.map Snapshot.serial = sp.current := by
      intro hne
      obtain ⟨w, hw, hwv, -⟩ | ⟨-, s, hs, hsv, hr⟩ := ha
      · exact absurd hwv (hne w hw)
      refine head_filterMap_release (fun x hx hc hxv => ?_)
      rw [hu x hx s hs (hxv.trans hsv.symm)]
      exact hr (hxv ▸ hc)
    rw [Spec.step]
    cases hw : sp.writer with
    | none => exact .inl (hread (fun w h => by rw [hw] at h; cases h))
    | some w =>
      simp only
      split
      · rw [Spec.closeWriter]
        split
        · exact .inl rfl
        split
        · exact .inr ⟨w, rfl, rfl⟩
        · exact .inl rfl
      next hne =>
        refine .inl (hread (fun x hx => ?_))
        rw [hw] at hx
        rw [← some_inj.1 hx]
        exact hne
  | addrdataset mem n type ttl rdata o | subtractrdataset mem n type ttl rdata exact =>
    refine .inl ?_
    rw [Spec.step]
    split
    · rfl
    · exact hwrite _ _ _
  | deleterdataset mem n type =>
    refine .inl ?_
    rw [Spec.step]
    split
    · rfl
    split
    · rfl
    split
    · rfl
    · exact hwrite _ _ _
  | findrdataset v n type => exact .inl rfl
  | attachnode n => exact .inl rfl
  | detachnode n => exact .inl rfl

theorem unique_spec (hi : Inv db) : ∀ x ∈ db.spec.opened, ∀ y ∈ db.spec.opened, x.serial = y.serial → x = y := by
  intro x hx y hy hxy
  obtain ⟨u, hu, rfl⟩ := mem_map.1 hx
  obtain ⟨v, hv, rfl⟩ := mem_map.1 hy
  rw [hi.version_unique hu hv hxy]

def Db.serials (db : Db) : List ℕ := db.openVersions.map Version.serial

theorem mem_serials : v ∈ db.serials ↔ ∃ s ∈ db.spec.opened, s.serial = v ∧ s.view = db.view v := by
  rw [Db.serials, mem_map]
  constructor
  · rintro ⟨u, hu, rfl⟩
    exact ⟨_, mem_map_of_mem hu, rfl, rfl⟩
  · rintro ⟨s, hs, rfl, -⟩
    obtain ⟨u, hu, rfl⟩ := mem_map.1 hs
    exact ⟨u, hu, rfl⟩

theorem Inv.serial_le (hi : Inv db) (hv : v ∈ db.serials) : v ≤ db.currentSerial := by
  obtain ⟨u, hu, rfl⟩ := mem_map.1 hv
  exact hi.le_current u hu

/-- What a call leaves of the open versions. -/
theorem step_serials (hi : Inv db) {op : Op} {a : Answer} (ha : Allowed db.spec op) (hs : step ops db op = .ok (db', a)) :
    db.currentSerial ≤ db'.currentSerial ∧
      ∀ v, v ∈ db'.serials → (v ∈ db.serials ∧ db'.view v = db.view v) ∨ db.currentSerial < v := by
  obtain ⟨hi', hsp⟩ := step_ok hi ha hs
  have hfst : (db.spec.step ops op).1 = db'.spec := by rw [hsp]
  have hwriter : ∀ {w}, db.spec.writer = some w → db.currentSerial < w.serial := by
    intro w hw
    obtain ⟨x, hx, rfl⟩ := map_eq_some_iff.1 hw
    exact (hi.writer x hx).2.2.1
  refine ⟨?_, fun v hv => ?_⟩
  · have hcur := current_step ops ha (unique_spec hi)
    rw [hfst, current_spec hi', current_spec hi] at hcur
    obtain hc | ⟨w, hw, hc⟩ := hcur
    · exact (some_inj.1 hc).ge
    have := hwriter hw
    rw [← some_inj.1 hc] at this
    omega
  · obtain ⟨s, hsm, rfl, hview⟩ := mem_serials.1 hv
    rw [← hfst] at hsm
    obtain ⟨x, hx, hxs, hxv⟩ | ⟨w, hw, hws, -⟩ := opened_step db.spec op hsm
    · obtain ⟨u, hu, rfl⟩ := mem_map.1 hx
      have hus : u.serial = s.serial := hxs
      refine .inl ⟨mem_map.2 ⟨u, hu, hus⟩, ?_⟩
      rw [← hview, ← hxv, ← hus]
    · rw [← hws]
      exact .inr (hwriter hw)

theorem Run.closed (hrun : Run ops db l db') : Inv db → v ∉ db.serials → v < db.currentSerial → v ∉ db'.serials := by
  induction hrun with
  | nil db => exact fun _ h _ => h
  | cons ha hs _ ih =>
    intro hi hno hlt
    obtain ⟨hcur, hser⟩ := step_serials hi ha hs
    refine ih (step_ok hi ha hs).1 (fun hv => ?_) (by omega)
    obtain ⟨hin, -⟩ | hgt := hser v hv
    · exact hno hin
    · omega

/-- As long as a version is open, it shows the same. -/
theorem Run.view (hrun : Run ops db l db') : Inv db → v ∈ db.serials → v ∈ db'.serials → db'.view v = db.view v := by
  induction hrun with
  | nil db => exact fun _ _ _ => rfl
  | @cons db db1 db' op l a ha hs hrest ih =>
    intro hi hv hv'
    have hi1 := (step_ok hi ha hs).1
    obtain ⟨hcur, hser⟩ := step_serials hi ha hs
    have hle := hi.serial_le hv
    by_cases hv1 : v ∈ db1.serials
    · obtain ⟨-, heq⟩ | hgt := hser v hv1
      · rw [ih hi1 hv1 hv', heq]
      · omega
    -- closed by this call, so it is not the newest, and stays closed
    have hlt : v < db1.currentSerial := by
      obtain ⟨c, cs, hc, hcs⟩ := hi1.current
      have hin : db1.currentSerial ∈ db1.serials := by
        rw [Db.serials, hc, ← hcs]
        exact mem_cons_self
      have hne : v ≠ db1.currentSerial := fun h => hv1 (h ▸ hin)
      omega
    exact absurd hv' (hrest.closed hi1 hv1 hlt)

/-! ### Rollback -/

/-- Does the call leave the version `w` of the writer alone? -/
def Op.leaves (w : ℕ) : Op → Bool
  | .attachversion v => decide (v ≠ w)
  | .closeversion v _ => decide (v ≠ w)
  | .findrdataset v _ _ => decide (v ≠ w)
  | .newversion _ => false
  | .addrdataset _ _ _ _ _ _ => false
  | .subtractrdataset _ _ _ _ _ _ => false
  | .deleterdataset _ _ _ => false
  | _ => true

/-- Does the call open or close the version `w`? -/
def Op.holds (w : ℕ) : Op → Bool
  | .attachversion v => decide (v = w)
  | .closeversion v _ => decide (v = w)
  | _ => false

/-- The same snapshots with and without the writer `w`. -/
structure Beside (w : ℕ) (sp sp0 : Spec) : Prop where
  opened : sp.opened = sp0.opened
  held : sp.held = sp0.held
  none : sp0.writer = none
  writer : ∃ x, sp.writer = some x ∧ x.serial = w ∧ x.references = 1

theorem Beside.write {w : ℕ} {sp sp0 : Spec} (hb : Beside w sp sp0) (mem : Bool) (n : ℕ)
    (f : NodeView → NodeView × Result) : Beside w (sp.write mem n f).1 sp0 := by
  obtain ⟨x, hx, hxw, hxr⟩ := hb.writer
  rw [Spec.write, hx]
  simp only
  split
  · exact ⟨hb.opened, hb.held, hb.none, _, rfl, hxw, hxr⟩
  · exact ⟨hb.opened, hb.held, hb.none, _, rfl, hxw, hxr⟩

theorem Beside.lookup {w v : ℕ} {sp sp0 : Spec} (hb : Beside w sp sp0) (hv : v ≠ w) : sp0.lookup v = sp.lookup v := by
  obtain ⟨x, hx, hxw, -⟩ := hb.writer
  rw [Spec.lookup, Spec.lookup, hb.none, hx, hb.opened]
  simp only
  rw [if_neg (by rw [hxw]; exact Ne.symm hv)]

theorem Beside.current {w : ℕ} {sp sp0 : Spec} (hb : Beside w sp sp0) : sp.current = sp0.current := by
  rw [Spec.current, Spec.current, hb.opened]

theorem Beside.step (ops : RdataOps) {w : ℕ} {sp sp0 : Spec} (hb : Beside w sp sp0) {op : Op} (ha : Allowed sp op)
    (hop : op.holds w = false) : if op.leaves w then Allowed sp0 op ∧ Beside w (sp.step ops op).1 (sp0.step ops op).1
    else Beside w (sp.step ops op).1 sp0 := by
  obtain ⟨x, hx, hxw, hxr⟩ := hb.writer
  cases op with
  | currentversion =>
    simp only [Op.leaves, if_true]
    refine ⟨trivial, ?_, hb.held, hb.none, x, hx, hxw, hxr⟩
    simp only [Spec.step, hb.current, hb.opened]
  | attachversion v =>
    have hv : v ≠ w := by simpa [Op.holds] using hop
    simp only [Op.leaves, hv, ne_eq, not_false_eq_true, decide_true, if_true]
    have ha' : (sp.lookup v).isSome = true := ha
    refine ⟨by rw [Allowed, hb.lookup hv]; exact ha', ?_, hb.held, ?_, x, ?_, hxw, hxr⟩
    · simp only [Spec.step, hb.opened]
    · simp only [Spec.step, hb.none, map_none]
    · simp only [Spec.step, hx, map_some, hxw, if_neg (Ne.symm hv)]
  | newversion mem =>
    have ha' : sp.writer.isNone = true := ha
    rw [hx] at ha'
    exact absurd ha' (by simp)
  | closeversion v commit =>
    have hv : v ≠ w := by simpa [Op.holds] using hop
    simp only [Op.leaves, hv, ne_eq, not_false_eq_true, decide_true, if_true]
    refine ⟨.inr ⟨fun y hy => ?_, ?_⟩, ?_, ?_, ?_, x, ?_, hxw, hxr⟩
    · rw [hb.none] at hy
      cases hy
    · obtain ⟨y, hy, hyv, -⟩ | ⟨-, s, hs, hsv, hr⟩ := ha
      · rw [hx] at hy
        rw [← some_inj.1 hy, hxw] at hyv
        exact absurd hyv.symm hv
      · exact ⟨s, hb.opened ▸ hs, hsv, fun hc => hr (by rw [hb.current]; exact hc)⟩
    all_goals
      simp only [Spec.step, hx, hb.none, hxw, if_neg (Ne.symm hv), hb.opened, hb.held]
  | addrdataset mem n type ttl rdata o | subtractrdataset mem n type ttl rdata exact =>
    simp only [Op.leaves, Bool.false_eq_true, if_false, Spec.step]
    split
    · exact hb
    · exact hb.write _ _ _
  | deleterdataset mem n type =>
    simp only [Op.leaves, Bool.false_eq_true, if_false, Spec.step]
    split
    · exact hb
    split
    · exact hb
    split
    · exact hb
    · exact hb.write _ _ _
  | findrdataset v n type =>
    by_cases hv : v = w
    · simp only [Op.leaves, hv, ne_eq, not_true_eq_false, decide_false, Bool.false_eq_true, if_false]
      exact hb
    · simp only [Op.leaves, hv, ne_eq, not_false_eq_true, decide_true, if_true]
      exact ⟨⟨by rw [hb.lookup hv]; exact ha.1, hb.held ▸ ha.2.1, ha.2.2⟩, hb⟩
  | attachnode n =>
    simp only [Op.leaves, if_true]
    exact ⟨trivial, hb.opened, by simp only [Spec.step, hb.held], hb.none, x, hx, hxw, hxr⟩
  | detachnode n =>
    have ha' : 0 < sp.held n := ha
    simp only [Op.leaves, if_true]
    exact ⟨by rw [Allowed, ← hb.held]; exact ha', hb.opened, by simp only [Spec.step, hb.held], hb.none, x, hx, hxw, hxr⟩

theorem Run.beside {w : ℕ} (hrun : Run ops db l db') : Inv db → (∀ op ∈ l, op.holds w = false) →
    ∀ db0, Inv db0 → Beside w db.spec db0.spec →
      ∃ db1, Run ops db0 (l.filter (Op.leaves w)) db1 ∧ Beside w db'.spec db1.spec := by
  induction hrun with
  | nil db => exact fun _ _ db0 _ hb => ⟨db0, Run.nil db0, hb⟩
  | @cons db db2 db' op l a ha hs _ ih =>
    intro hi hl db0 hi0 hb
    obtain ⟨hi2, hsp⟩ := step_ok hi ha hs
    have hstep := hb.step ops ha (hl op mem_cons_self)
    have hl' : ∀ op ∈ l, op.holds w = false := fun o ho => hl o (mem_cons_of_mem _ ho)
    rw [hsp] at hstep
    cases hleave : op.leaves w with
    | false =>
      rw [hleave] at hstep
      rw [filter_cons_of_neg (by simp [hleave])]
      exact ih hi2 hl' db0 hi0 (by simpa using hstep)
    | true =>
      rw [hleave] at hstep
      obtain ⟨ha0, hb0⟩ := by simpa using hstep
      rw [filter_cons_of_pos hleave]
      obtain ⟨db3, a3, hs3, hi3, hsp3⟩ | ⟨-, -, mem, rfl⟩ := (step_spec hi0 ha0 : Steps ops db0 op)
      · rw [hsp3] at hb0
        obtain ⟨db1, hrun1, hb1⟩ := ih hi2 hl' db3 hi3 hb0
        exact ⟨db1, Run.cons ha0 hs3 hrun1, hb1⟩
      · exact absurd hleave (by simp [Op.leaves])

theorem Run.append {l1 l2 : List Op} : ∀ {db}, Run ops db (l1 ++ l2) db' → ∃ db1, Run ops db l1 db1 ∧ Run ops db1 l2 db' := by
  induction l1 with
  | nil => exact fun {db} h => ⟨db, Run.nil db, h⟩
  | cons op l1 ih =>
    intro db h
    cases h with
    | cons ha hs hrest =>
      obtain ⟨db1, h1, h2⟩ := ih hrest
      exact ⟨db1, Run.cons ha hs h1, h2⟩

theorem rollback_spec (hi : Inv db) (hl : ∀ op ∈ l, op.holds db.nextSerial = false)
    (hrun : Run ops db (.newversion true :: (l ++ [.closeversion db.nextSerial false])) db') :
    ∃ db1, Run ops db (l.filter (Op.leaves db.nextSerial)) db1 ∧ db'.spec = { db1.spec with next := db'.nextSerial } := by
  cases hrun with
  | @cons _ db2 _ _ _ a ha hs hrest =>
    obtain ⟨hi2, hsp⟩ := step_ok hi ha hs
    have hnone : db.spec.writer = none := isNone_iff_eq_none.1 ha
    obtain ⟨c, cs, hc, -⟩ := hi.current
    have hopened : db.spec.opened = ⟨c.serial, c.references, db.view c.serial⟩ ::
        cs.map (fun v => ⟨v.serial, v.references, db.view v.serial⟩) := by
      rw [Db.spec, hc]
      rfl
    have hb : Beside db.nextSerial db2.spec db.spec := by
      have hfst : (db.spec.step ops (.newversion true)).1 = db2.spec := by rw [hsp]
      rw [Spec.step, if_neg (by simp), hopened] at hfst
      rw [← hfst]
      exact ⟨hopened.symm, rfl, hnone, _, rfl, rfl, rfl⟩
    obtain ⟨db3, hrun1, hrun2⟩ := hrest.append
    obtain ⟨db1, hbeside, hb3⟩ := hrun1.beside hi2 hl db hi hb
    refine ⟨db1, hbeside, ?_⟩
    obtain ⟨hi3, -⟩ := hrun1.spec hi2
    cases hrun2 with
    | cons ha3 hs3 hnil =>
      cases hnil with
      | nil =>
        obtain ⟨-, hsp3⟩ := step_ok hi3 ha3 hs3
        obtain ⟨x, hx, hxw, hxr⟩ := hb3.writer
        have hfst := congrArg Prod.fst hsp3
        simp only [Spec.step, hx, hxw, if_true, Spec.closeWriter, hxr, lt_irrefl, if_false,
          Bool.false_eq_true] at hfst
        rw [← hfst, Spec.mk.injEq]
        exact ⟨hb3.opened, hb3.none.symm, congrArg Spec.next hfst, hb3.held⟩

/-- What holds of a database that calls can reach. -/
structure Isolated (ops : RdataOps) (db : Db) : Prop where
  /-- No `INSIST` fires; `newversion` stops when the 32-bit serial has wrapped. -/
  runs : ∀ op, Allowed db.spec op → (∃ db' a, step ops db op = .ok (db', a)) ∨
    (step ops db op = .error .runtimeCheck ∧ db.nextSerial = 0 ∧ ∃ mem, op = .newversion mem)
  /-- Serials do not rise along a chain. -/
  falls : ∀ n, ∀ c ∈ (db.nodes n).data, (c.headers.map Header.serial).Pairwise (· ≥ ·)
  /-- The open versions stand newest first. -/
  opened : db.serials.Pairwise (· > ·)
  least : IsLeast {s | s ∈ db.serials} db.leastSerial
  /-- What a version shows is what the writer saw when it was committed. -/
  committed : ∀ w db' a, db.futureVersion = some w → w.references = 1 → w.commitOk = true →
    step ops db (.closeversion w.serial true) = .ok (db', a) → w.serial ∈ db'.serials ∧
      ∀ n t, zoneFindrdataset (db'.nodes n) w.serial t = zoneFindrdataset (db.nodes n) w.serial t
  /-- As long as a version is open, it shows the same. -/
  stays : ∀ l db', Run ops db l db' → ∀ v ∈ db.serials, v ∈ db'.serials →
    ∀ n t, zoneFindrdataset (db'.nodes n) v t = zoneFindrdataset (db.nodes n) v t
  /-- All that the calls do to versions and nodes, `Spec.step` does to the snapshots. -/
  refines : ∀ l db', Run ops db l db' → db'.spec = db.spec.run ops l
  /-- The open and the later versions are as if a rolled-back writer had not been there. -/
  rollback : ∀ l db', (∀ op ∈ l, op.holds db.nextSerial = false) →
    Run ops db (.newversion true :: (l ++ [.closeversion db.nextSerial false])) db' →
      ∃ db1, Run ops db (l.filter (Op.leaves db.nextSerial)) db1 ∧
        db'.spec = { db1.spec with next := db'.nextSerial }

theorem snapshot_isolation (h : Reach ops db) : Isolated ops db := by
  have hi := h.inv
  have hfind : ∀ {db1 db2 : Db} {v : ℕ}, Inv db1 → Inv db2 → db2.view v = db1.view v →
      ∀ n t, zoneFindrdataset (db2.nodes n) v t = zoneFindrdataset (db1.nodes n) v t := by
    intro db1 db2 v hi1 hi2 hv n t
    have hn : view v (db2.nodes n).data = view v (db1.nodes n).data := congrFun hv n
    rw [zoneFindrdataset_eq (hi2.nodes n).ok, zoneFindrdataset_eq (hi1.nodes n).ok, hn]
  refine ⟨fun op ha => ?_, fun n c hc => ?_, pairwise_map.2 hi.sorted, ⟨?_, ?_⟩, ?_, ?_, ?_, ?_⟩
  · obtain ⟨db', a, hs, -, -⟩ | herr := (step_spec hi ha : Steps ops db op)
    · exact .inl ⟨db', a, hs⟩
    · exact .inr herr
  · exact pairwise_map.2 (((hi.nodes n).ok.chains c hc).ordered.falls)
  · obtain ⟨vs, v, hv, hs, -⟩ := hi.least
    exact mem_map.2 ⟨v, by rw [hv]; simp, hs⟩
  · intro s hs
    obtain ⟨v, hv, rfl⟩ := mem_map.1 hs
    exact hi.least_le v hv
  · intro w db' a hw hr hok hs
    have ha : Allowed db.spec (.closeversion w.serial true) :=
      .inl ⟨_, by rw [Db.spec, hw]; rfl, rfl, fun _ => ⟨hok, hr⟩⟩
    obtain ⟨hi', hsp⟩ := step_ok hi ha hs
    have hsw : db.spec.writer = some ⟨⟨w.serial, w.references, db.view w.serial⟩, w.commitOk⟩ := by
      rw [Db.spec, hw]
      rfl
    have hfst := congrArg Prod.fst hsp
    simp only [Spec.step, hsw, if_true, Spec.closeWriter, hr, lt_irrefl, if_false] at hfst
    have hmem : (⟨w.serial, 1, db.view w.serial⟩ : Snapshot) ∈ db'.spec.opened := by
      rw [← hfst]
      exact mem_cons_self
    obtain ⟨u, hu, he⟩ := mem_map.1 hmem
    obtain ⟨hus, -, huv⟩ := Snapshot.mk.inj he
    refine ⟨mem_map.2 ⟨u, hu, hus⟩, hfind hi hi' ?_⟩
    rw [← huv, hus]
  · intro l db' hrun v hv hv'
    exact hfind hi (hrun.spec hi).1 (hrun.view hi hv hv')
  · exact fun l db' hrun => (hrun.spec hi).2
  · exact fun l db' hl hrun => rollback_spec hi hl hrun

/-- Rdata compared as byte strings, without singleton types. -/
def bytewise : RdataOps := ⟨fun _ r s => compareOfLessAndEq r s, fun _ => false⟩

/-- A committed address record at node 0, and a writer that has deleted it. -/
theorem snapshot_isolation_deleted : ∃ db, Isolated bytewise db ∧ db.serials = [2] ∧
    db.futureVersion.map Version.serial = some 3 ∧
    zoneFindrdataset (db.nodes 0) 2 ⟨1, 0⟩ = some (⟨300, ⟨[[10, 0, 0, 7]], by decide⟩⟩, none) ∧
    zoneFindrdataset (db.nodes 0) 3 ⟨1, 0⟩ = none := by
  refine ⟨_, snapshot_isolation ⟨create, [.attachnode 0, .newversion true,
    .addrdataset ⟨true, true, true⟩ 0 ⟨1, 0⟩ 300 ⟨[[10, 0, 0, 7]], by decide⟩ ⟨true, false, false⟩,
    .closeversion 2 true, .newversion true, .deleterdataset ⟨true, true, true⟩ 0 ⟨1, 0⟩], Loaded.create,
    Run.cons trivial rfl (Run.cons rfl rfl (Run.cons ⟨rfl, Nat.one_pos⟩ rfl (Run.cons
      (.inl ⟨_, rfl, rfl, fun _ => ⟨rfl, rfl⟩⟩) rfl (Run.cons rfl rfl (Run.cons ⟨rfl, Nat.one_pos⟩ rfl
        (Run.nil _))))))⟩, rfl, rfl, rfl, rfl⟩

end Bind9.Rbtdb
