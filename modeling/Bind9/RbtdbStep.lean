import Mathlib.Data.List.Basic
import Mathlib.Tactic
import Bind9.RbtdbSpec

/-! # The calls keep the snapshots

Every allowed call keeps the invariant and does to the snapshots what `Spec.step` says
(`step_spec`).  There is one lemma for each call; `closeversion` has three, for the branches of the
source (`closeReader_spec`, `rollbackVersion_spec`, `commitVersion_spec`). -/

namespace Bind9.Rbtdb

open VersionChain
open List
open Function
open Option hiding map_id map_map mem_map mem_map_of_mem

variable {ops : RdataOps} {db : Db}

/-! ### Views -/

/-- Two versions see the same when no live header lies between them. -/
theorem view_congr {data : List Chain} {u v : ℕ}
    (h : ∀ x, Stands data x → x.ignore = false → (x.serial ≤ u ↔ x.serial ≤ v)) : view u data = view v data := by
  funext t
  rw [view, view]
  cases hc : findChain t data with
  | none => rfl
  | some c =>
    have : see u c.headers = see v c.headers :=
      seen_congr (fun x hx hi => h x ⟨c, (findChain_some hc).1, hx⟩ hi)
    rw [bind_some, bind_some, this]

/-! ### Serials -/

theorem Inv.least_le (hi : Inv db) : ∀ v ∈ db.openVersions, db.leastSerial ≤ v.serial := by
  obtain ⟨vs, l, hl, hs, -⟩ := hi.least
  have hsort := hi.sorted
  rw [hl] at hsort ⊢
  intro v hv
  obtain hv | hv := mem_append.1 hv
  · have := (pairwise_append.1 hsort).2.2 v hv l mem_cons_self
    omega
  · rw [mem_singleton.1 hv]
    omega

theorem Inv.le_current (hi : Inv db) : ∀ v ∈ db.openVersions, v.serial ≤ db.currentSerial := by
  obtain ⟨c, vs, hc, hs⟩ := hi.current
  have hsort := hi.sorted
  rw [hc] at hsort ⊢
  intro v hv
  obtain rfl | hv := mem_cons.1 hv
  · omega
  · have := (pairwise_cons.1 hsort).1 v hv
    omega

theorem Inv.least_le_current (hi : Inv db) : db.leastSerial ≤ db.currentSerial := by
  obtain ⟨c, vs, hc, hs⟩ := hi.current
  rw [← hs]
  exact hi.least_le c (by rw [hc]; exact mem_cons_self)

variable {u v cur : Version}

theorem Inv.findVersion (hi : Inv db) (hv : v ∈ db.openVersions) : findVersion v.serial db.openVersions = some v := by
  obtain ⟨newer, older, hsplit⟩ := append_of_mem hv
  have hs := hi.sorted
  rw [hsplit] at hs ⊢
  exact findVersion_split hs

theorem Inv.version_open (hi : Inv db) (hv : v ∈ db.openVersions) : db.version v.serial = some v := by
  rw [Db.version]
  cases hw : db.futureVersion with
  | none => exact hi.findVersion hv
  | some w =>
    have h1 := (hi.writer w hw).2.2.1
    have h2 := hi.le_current v hv
    simp only
    rw [if_neg (by omega)]
    exact hi.findVersion hv

theorem version_future {w : Version} (hw : db.futureVersion = some w) : db.version w.serial = some w := by
  simp [Db.version, hw]

/-! ### References to versions -/

/-- A change of the versions that neither `NodeInv` nor the records see. -/
structure Recount (g : Version → Version) : Prop where
  serial : ∀ v, (g v).serial = v.serial
  changed : ∀ v, (g v).changed = v.changed
  writer : ∀ v, (g v).writer = v.writer
  positive : ∀ v, 0 < v.references → 0 < (g v).references

theorem Recount.id : Recount id := ⟨fun _ => rfl, fun _ => rfl, fun _ => rfl, fun _ h => h⟩

variable {r n : ℕ}

theorem Recount.references (hr : 0 < r) (s : ℕ) :
    Recount (fun v => if v.serial = s then { v with references := r } else v) := by
  refine ⟨fun v => ?_, fun v => ?_, fun v => ?_, fun v hv => ?_⟩
  · split <;> rfl
  · split <;> rfl
  · split <;> rfl
  · split
    · exact hr
    · exact hv

/-- The database with other reference counts on its versions. -/
def Db.recount (db : Db) (g g' : Version → Version) : Db :=
  { db with openVersions := db.openVersions.map g, futureVersion := db.futureVersion.map g' }

section recount
variable {g g' : Version → Version}

theorem records_recount (hg : Recount g) (hg' : Recount g') : (db.recount g g').records = db.records := by
  have hopen : ∀ vs : List Version, (vs.map g).flatMap Version.changed = vs.flatMap Version.changed := by
    intro vs
    rw [flatMap_map]
    exact flatMap_congr (fun v _ => hg.changed v)
  rw [Db.records, Db.records, Db.recount]
  rw [hopen]
  cases db.futureVersion with
  | none => rfl
  | some w => rw [map_some, elim_some, elim_some, hg'.changed]

theorem NodeInv.recount (hg : Recount g) (hg' : Recount g') {node : Node} (hn : NodeInv db n node) :
    NodeInv (db.recount g g') n node where
  ok := hn.ok
  bounded := hn.bounded
  live h hs hl := (hn.live h hs hl).imp_right (fun hw => by
    obtain ⟨w, hw, he⟩ := hw
    exact ⟨g' w, by rw [Db.recount, hw, map_some], by rw [hg'.serial, he]⟩)
  own w' hw' h hs he := by
    obtain ⟨w, hw, rfl⟩ := map_eq_some_iff.1 hw'
    rw [hg'.changed]
    rw [hg'.serial] at he
    exact hn.own w hw h hs he
  old h ha hl hc := (hn.old h ha hl hc).imp_right (fun hv => by
    obtain ⟨v, hv, hle, hr⟩ := hv
    exact ⟨g v, mem_map_of_mem hv, by rw [hg.serial]; exact hle, by rw [hg.changed]; exact hr⟩)
  new w' hw' h ha he := by
    obtain ⟨w, hw, rfl⟩ := map_eq_some_iff.1 hw'
    rw [hg'.changed]
    rw [hg'.serial] at he
    exact hn.new w hw h ha he

theorem Inv.recount (hi : Inv db) (hg : Recount g) (hg' : Recount g') : Inv (db.recount g g') := by
  refine ⟨?_, ?_, ?_, ?_, ?_, hi.below, hi.wraps, ?_, fun n => (hi.nodes n).recount hg hg'⟩
  · refine pairwise_map.2 (hi.sorted.imp (fun {u v} huv => ?_))
    rw [hg.serial, hg.serial]
    exact huv
  · obtain ⟨v, vs, hv, hs⟩ := hi.current
    exact ⟨g v, vs.map g, by rw [Db.recount, hv, map_cons], by rw [hg.serial]; exact hs⟩
  · obtain ⟨vs, v, hv, hs, hc⟩ := hi.least
    exact ⟨vs.map g, g v, by rw [Db.recount, hv, map_append]; rfl, by rw [hg.serial]; exact hs,
      by rw [hg.changed]; exact hc⟩
  · intro v' hv'
    obtain ⟨v, hv, rfl⟩ := mem_map.1 hv'
    exact ⟨by rw [hg.writer]; exact (hi.readers v hv).1, hg.positive v (hi.readers v hv).2⟩
  · intro w' hw'
    obtain ⟨w, hw, rfl⟩ := map_eq_some_iff.1 hw'
    obtain ⟨h1, h2, h3, h4⟩ := hi.writer w hw
    rw [hg'.writer, hg'.serial]
    exact ⟨h1, hg'.positive w h2, h3, h4⟩
  · intro n
    rw [Db.pinned, records_recount hg hg']
    exact hi.pins n

theorem spec_recount (hg : Recount g) (hg' : Recount g') :
    (db.recount g g').spec =
      { db.spec with
        opened := db.openVersions.map (fun v => ⟨v.serial, (g v).references, db.view v.serial⟩)
        writer := db.futureVersion.map (fun w =>
          ⟨⟨w.serial, (g' w).references, db.view w.serial⟩, (g' w).commitOk⟩) } := by
  refine Spec.ext ?_ ?_ rfl ?_
  · simp only [Db.spec, Db.recount, map_map]
    refine map_congr_left (fun v _ => ?_)
    rw [comp_apply, hg.serial]
    rfl
  · simp only [Db.spec, Db.recount, Option.map_map]
    refine congrArg (fun f => Option.map f db.futureVersion) (funext fun w => ?_)
    rw [comp_apply, hg'.serial]
    rfl
  · funext n
    simp only [Db.spec, Db.pinned, records_recount hg hg']
    rfl

end recount

theorem setReferences_eq (s r : ℕ) :
    db.setReferences s r = db.recount (fun v => if v.serial = s then { v with references := r } else v)
      (fun v => if v.serial = s then { v with references := r } else v) := rfl

theorem Inv.setReferences (hi : Inv db) (s : ℕ) (hr : 0 < r) : Inv (db.setReferences s r) := by
  rw [setReferences_eq]
  exact hi.recount (Recount.references hr s) (Recount.references hr s)

theorem lookup_spec (v : ℕ) : db.spec.lookup v = (db.version v).map (fun u => db.view u.serial) := by
  have hopen : (db.spec.opened.find? (fun s => decide (s.serial = v))).map Snapshot.view =
      (findVersion v db.openVersions).map (fun u => db.view u.serial) := by
    rw [Db.spec, findVersion, find?_map, Option.map_map]
    rfl
  rw [Spec.lookup, hopen, Db.version]
  cases hw : db.futureVersion with
  | none => simp [Db.spec, hw]
  | some w =>
    simp only [Db.spec, hw, map_some]
    split
    · rfl
    · rfl

theorem version_mem {v : ℕ} (h : db.version v = some u) :
    u.serial = v ∧ (db.futureVersion = some u ∨ u ∈ db.openVersions) := by
  have hfind : ∀ {u}, findVersion v db.openVersions = some u → u.serial = v ∧ u ∈ db.openVersions :=
    fun h => ⟨by simpa using find?_some h, mem_of_find?_eq_some h⟩
  rw [Db.version] at h
  cases hw : db.futureVersion with
  | none =>
    rw [hw] at h
    exact ⟨(hfind h).1, .inr (hfind h).2⟩
  | some w =>
    rw [hw] at h
    simp only at h
    by_cases hv : w.serial = v
    · rw [if_pos hv] at h
      obtain rfl := some_inj.1 h
      exact ⟨hv, .inl rfl⟩
    · rw [if_neg hv] at h
      exact ⟨(hfind h).1, .inr (hfind h).2⟩

theorem current_spec (hi : Inv db) : db.spec.current = some db.currentSerial := by
  obtain ⟨v, vs, hv, hs⟩ := hi.current
  rw [Spec.current, Db.spec, hv, ← hs]
  rfl

theorem Inv.version_unique (hi : Inv db) (hu : u ∈ db.openVersions) (hv : v ∈ db.openVersions)
    (h : u.serial = v.serial) : u = v := by
  have h1 := hi.findVersion hu
  have h2 := hi.findVersion hv
  rw [h] at h1
  exact some_inj.1 (h1.symm.trans h2)

theorem Inv.future_ne (hi : Inv db) {w : Version} (hw : db.futureVersion = some w) (hv : v ∈ db.openVersions) :
    w.serial ≠ v.serial := by
  have h1 := (hi.writer w hw).2.2.1
  have h2 := hi.le_current v hv
  omega

theorem steps_currentversion (hi : Inv db) : Steps ops db .currentversion := by
  obtain ⟨v, vs, hv, hs⟩ := hi.current
  have hmem : v ∈ db.openVersions := by
    rw [hv]
    exact mem_cons_self
  have hrun : step ops db .currentversion =
      .ok (db.setReferences v.serial (v.references + 1), .version (some v.serial)) := by
    rw [step, currentversion, ← hs, hi.findVersion hmem]
    rfl
  have hg : Recount (fun u => if u.serial = v.serial then { u with references := v.references + 1 } else u) :=
    Recount.references (Nat.succ_pos _) _
  refine .inl ⟨_, _, hrun, hi.setReferences _ (Nat.succ_pos _), ?_⟩
  rw [setReferences_eq, spec_recount hg hg, Spec.step, current_spec hi, ← hs]
  refine Prod.ext (Spec.ext ?_ ?_ rfl rfl) rfl
  · simp only [Db.spec, map_map]
    refine map_congr_left (fun u hu => ?_)
    rw [comp_apply, getD_some, Spec.acquire]
    by_cases hus : u.serial = v.serial
    · rw [if_pos hus, if_pos hus, hi.version_unique hu hmem hus]
    · rw [if_neg hus, if_neg hus]
  · simp only [Db.spec]
    cases hw : db.futureVersion with
    | none => rfl
    | some w =>
      simp only [map_some]
      rw [if_neg (hi.future_ne hw hmem)]

theorem steps_attachversion (hi : Inv db) {v : ℕ} (ha : Allowed db.spec (.attachversion v)) :
    Steps ops db (.attachversion v) := by
  have ha : (db.spec.lookup v).isSome = true := ha
  rw [lookup_spec, isSome_map] at ha
  obtain ⟨u, hu⟩ := isSome_iff_exists.1 ha
  obtain ⟨hus, hor⟩ := version_mem hu
  have hpos : 0 < u.references := hor.elim (fun h => (hi.writer u h).2.1) (fun h => (hi.readers u h).2)
  have hrun : step ops db (.attachversion v) = .ok (db.setReferences v (u.references + 1), .done) := by
    rw [step, attachversion, hu]
    simp only
    rw [insist_true (by simpa using hpos)]
    rfl
  have hg : Recount (fun x => if x.serial = v then { x with references := u.references + 1 } else x) :=
    Recount.references (Nat.succ_pos _) _
  refine .inl ⟨_, _, hrun, hi.setReferences _ (Nat.succ_pos _), ?_⟩
  rw [setReferences_eq, spec_recount hg hg, Spec.step]
  refine Prod.ext (Spec.ext ?_ ?_ rfl rfl) rfl
  · simp only [Db.spec, map_map]
    refine map_congr_left (fun x hx => ?_)
    rw [comp_apply, Spec.acquire]
    by_cases hxv : x.serial = v
    · have hxu : x = u := by
        have := hi.version_open hx
        rw [hxv, hu] at this
        exact (some_inj.1 this).symm
      rw [if_pos hxv, if_pos hxv, hxu]
    · rw [if_neg hxv, if_neg hxv]
  · simp only [Db.spec, Option.map_map]
    cases hw : db.futureVersion with
    | none => rfl
    | some w =>
      simp only [map_some, comp_apply]
      by_cases hwv : w.serial = v
      · have hwu : w = u := by
          have := version_future hw
          rw [hwv, hu] at this
          exact (some_inj.1 this).symm
        rw [if_pos hwv, if_pos hwv, hwu]
      · rw [if_neg hwv, if_neg hwv]

/-! ### Opening the writer -/

theorem steps_newversion (hi : Inv db) {mem : Bool} (ha : Allowed db.spec (.newversion mem)) :
    Steps ops db (.newversion mem) := by
  have ha : db.spec.writer.isNone = true := ha
  have hnone : db.futureVersion = none := by
    rw [Db.spec, isNone_map] at ha
    exact isNone_iff_eq_none.1 ha
  by_cases hnext : db.nextSerial = 0
  · refine .inr ⟨?_, hnext, mem, rfl⟩
    rw [step, newversion, hnone, insist_true (b := none.isNone) rfl, ok_bind, if_pos hnext]
    rfl
  have hlimit : db.limit = db.nextSerial := if_neg hnext
  cases mem with
  | false =>
    refine .inl ⟨db, .version none, ?_, hi, rfl⟩
    rw [step, newversion, hnone, insist_true (b := none.isNone) rfl, ok_bind, if_neg hnext]
    rfl
  | true =>
    obtain ⟨cur, vs, hcur, hcs⟩ := hi.current
    let w : Version := ⟨db.nextSerial, 1, true, true, []⟩
    let db' : Db := { db with futureVersion := some w, nextSerial := (db.nextSerial + 1) % 2 ^ 32 }
    have hlimit' : db'.limit = db.nextSerial + 1 := by
      have hw := hi.wraps
      have hdef : db'.limit =
          if (db.nextSerial + 1) % 2 ^ 32 = 0 then 2 ^ 32 else (db.nextSerial + 1) % 2 ^ 32 := rfl
      rw [hdef]
      by_cases hlast : db.nextSerial + 1 = 2 ^ 32
      · rw [hlast, Nat.mod_self, if_pos rfl]
      · have hmod : (db.nextSerial + 1) % 2 ^ 32 = db.nextSerial + 1 := Nat.mod_eq_of_lt (by omega)
        rw [hmod, if_neg (by omega)]
    have hrun : step ops db (.newversion true) = .ok (db', .version (some db.nextSerial)) := by
      rw [step, newversion, hnone, insist_true (b := none.isNone) rfl, ok_bind, if_neg hnext]
      rfl
    have hrec : db'.records = db.records := by
      simp [Db.records, db', hnone, w]
    have hb := hi.below
    have hinv : Inv db' := by
      refine ⟨hi.sorted, hi.current, hi.least, hi.readers, ?_, ?_, Nat.mod_lt _ (by decide), ?_, fun n => ?_⟩
      · intro x hx
        obtain rfl := some_inj.1 hx
        exact ⟨rfl, Nat.one_pos, by rw [hlimit] at hb; exact hb, hlimit'.symm⟩
      · rw [hlimit']
        have : db'.currentSerial = db.currentSerial := rfl
        omega
      · intro n
        rw [Db.pinned, hrec]
        exact hi.pins n
      · have hn := hi.nodes n
        refine ⟨hn.ok, fun h hs => ?_, fun h hs hl => .inl ?_, fun x hx h hs he => ?_, hn.old,
          fun x hx h ha' he => ?_⟩
        · have := hn.bounded h hs
          omega
        · refine (hn.live h hs hl).resolve_right ?_
          rintro ⟨w, hw, -⟩
          rw [hnone] at hw
          cases hw
        · obtain rfl := some_inj.1 hx
          have hlt := hn.bounded h hs
          rw [hlimit, he] at hlt
          exact absurd hlt (Nat.lt_irrefl _)
        · obtain rfl := some_inj.1 hx
          have hlt := hn.bounded h ha'.stands
          rw [hlimit, he] at hlt
          exact absurd hlt (Nat.lt_irrefl _)
    refine .inl ⟨db', _, hrun, hinv, ?_⟩
    have hopened : db.spec.opened = ⟨cur.serial, cur.references, db.view cur.serial⟩ ::
        vs.map (fun v => ⟨v.serial, v.references, db.view v.serial⟩) := by
      rw [Db.spec, hcur]
      rfl
    rw [Spec.step, if_neg (by simp), hopened]
    refine Prod.ext (Spec.ext ?_ ?_ rfl ?_) rfl
    · simp only [Db.spec, ← hopened]
      rfl
    · -- the new version starts as a copy of the current one
      have hview : db.view cur.serial = db'.view db.nextSerial := by
        funext n
        refine view_congr (fun x hx hl => ?_)
        have hle : x.serial ≤ db.currentSerial := by
          refine ((hi.nodes n).live x hx hl).resolve_right ?_
          rintro ⟨w, hw, -⟩
          rw [hnone] at hw
          cases hw
        omega
      simp only [Db.spec, hview]
      rfl
    · funext n
      simp only [Db.spec, Db.pinned, hrec]
      rfl

/-! ### Writing -/

variable {node : Node}

theorem NodeInv.writerOk (hi : Inv db) {w : Version} (hw : db.futureVersion = some w) {node : Node}
    (hn : NodeInv db n node) : WriterOk w.serial node.data where
  ok := hn.ok
  le h hs := by
    have h1 := hn.bounded h hs
    have h2 := (hi.writer w hw).2.2.2
    omega
  own h hs he := (hn.own w hw h hs he).1

theorem spec_writer {w : Version} (hw : db.futureVersion = some w) :
    db.spec.writer = some ⟨⟨w.serial, w.references, db.view w.serial⟩, w.commitOk⟩ := by
  rw [Db.spec, hw]
  rfl

/-- A write: `f` on the node does what `F` says of the content. -/
theorem changing_spec (hi : Inv db) {w : Version} (hw : db.futureVersion = some w) (mem : Bool) (n : ℕ)
    (f : Node → ℕ → Except Failure (Node × Bool × Result)) (F : NodeView → NodeView × Result)
    (hf : ∀ node : Node, WriterOk w.serial node.data → Wrote w.serial node (F (view w.serial node.data)) (f node w.serial)) :
    ∃ db' r, changing db mem n f = .ok (db', r) ∧ Inv db' ∧ db.spec.write mem n F = (db'.spec, .result r) := by
  have hsw := spec_writer hw
  rw [changing, hw, Spec.write, hsw]
  cases mem with
  | false =>
    have hg : Recount (fun w : Version => { w with commitOk := false }) :=
      ⟨fun _ => rfl, fun _ => rfl, fun _ => rfl, fun _ h => h⟩
    have heq : { db with futureVersion := some { w with commitOk := false } } =
        db.recount id (fun w => { w with commitOk := false }) := by
      rw [Db.recount, hw, map_id]
      rfl
    refine ⟨_, _, rfl, heq ▸ hi.recount Recount.id hg, ?_⟩
    rw [heq, spec_recount Recount.id hg, hw]
    rfl
  | true =>
    have hn := hi.nodes n
    let node1 : Node := { db.nodes n with references := (db.nodes n).references + 1 }
    obtain ⟨node', dirty, hrun, hwr, href, hview⟩ := (hf node1 ((hn.of_data rfl).writerOk hi hw)).runs
    let w' : Version := { w with changed := w.changed ++ [⟨n, dirty⟩] }
    let db' : Db := { db with nodes := update db.nodes n node', futureVersion := some w' }
    have hpin : ∀ m, db'.pinned m = db.pinned m + if n = m then 1 else 0 := by
      intro m
      have h1 : db'.records = db.records ++ [⟨n, dirty⟩] := by
        simp [Db.records, db', w', hw]
      rw [Db.pinned, h1, count_append, count_cons]
      simp [Db.pinned, count]
    have hrefs : ∀ m, (db'.nodes m).references = (db.nodes m).references + if n = m then 1 else 0 := by
      intro m
      have hdef : db'.nodes m = update db.nodes n node' m := rfl
      rw [hdef, update_apply]
      by_cases hm : m = n
      · rw [if_pos hm, if_pos hm.symm, href, hm]
      · rw [if_neg hm, if_neg (Ne.symm hm)]
        rfl
    have hother : ∀ m, m ≠ n → db'.nodes m = db.nodes m := fun m hm => update_of_ne hm _ _
    have hself : db'.nodes n = node' := update_self _ _ _
    -- the invariant of a node, from what stands there
    have hkeep : ∀ m node, DataOk node.data →
        (∀ h, Stands node.data h → Stands (db.nodes m).data h ∨ (m = n ∧ h.serial = w.serial ∧ h.ignore = false)) →
        (∀ h, Above node.data h → Above (db.nodes m).data h ∨ (m = n ∧ h.serial = w.serial ∧ dirty = true)) →
        NodeInv db' m node := by
      intro m node hok hst hab
      have hm := hi.nodes m
      have hcur := (hi.writer w hw).2.2
      refine ⟨hok, fun h hs => ?_, fun h hs hl => ?_, fun x hx h hs he => ?_, fun h ha hl hc => ?_,
        fun x hx h ha he => ?_⟩
      · obtain hs | ⟨-, he, -⟩ := hst h hs
        · exact hm.bounded h hs
        · have : db'.limit = db.limit := rfl
          omega
      · obtain hs | ⟨-, he, -⟩ := hst h hs
        · refine (hm.live h hs hl).imp_right ?_
          rintro ⟨x, hx, he⟩
          rw [hw] at hx
          obtain rfl := some_inj.1 hx
          exact ⟨w', rfl, he⟩
        · exact .inr ⟨w', rfl, he⟩
      · obtain rfl := some_inj.1 hx
        have hsub : w'.changed.map Changed.node = w.changed.map Changed.node ++ [n] := by simp [w']
        rw [hsub]
        obtain hs | ⟨rfl, -, hl⟩ := hst h hs
        · obtain ⟨hl, hmem⟩ := hm.own w hw h hs he
          exact ⟨hl, mem_append_left _ hmem⟩
        · exact ⟨hl, mem_append_right _ mem_cons_self⟩
      · obtain ha | ⟨-, he, -⟩ := hab h ha
        · exact hm.old h ha hl hc
        · have : db'.currentSerial = db.currentSerial := rfl
          omega
      · obtain rfl := some_inj.1 hx
        obtain ha | ⟨rfl, -, hd⟩ := hab h ha
        · exact mem_append_left _ (hm.new w hw h ha he)
        · rw [← hd]
          exact mem_append_right _ mem_cons_self
    have hinv : Inv db' := by
      refine ⟨hi.sorted, hi.current, hi.least, hi.readers, ?_, hi.below, hi.wraps, fun m => ?_, fun m => ?_⟩
      · intro x hx
        obtain rfl := some_inj.1 hx
        exact hi.writer w hw
      · rw [hpin, hrefs]
        exact Nat.add_le_add_right (hi.pins m) _
      · by_cases hm : m = n
        · subst hm
          rw [hself]
          exact hkeep m node' hwr.ok (fun h hs => (hwr.stands h hs).imp_right (fun hx => ⟨rfl, hx⟩))
            (fun h ha => (hwr.above h ha).imp_right (fun hx => ⟨rfl, hx⟩))
        · rw [hother m hm]
          exact hkeep m _ (hi.nodes m).ok (fun _ hs => .inl hs) (fun _ ha => .inl ha)
    refine ⟨db', (F (view w.serial node1.data)).2, ?_, hinv, ?_⟩
    · simp only [Bool.true_eq_false, if_false]
      rw [hrun]
      rfl
    · refine Prod.ext (Spec.ext ?_ ?_ rfl ?_) rfl
      · simp only [Db.spec]
        refine map_congr_left (fun v hv => ?_)
        have hlt : v.serial < w.serial := by
          have h1 := (hi.writer w hw).2.2.1
          have h2 := hi.le_current v hv
          omega
        have hold : db.view v.serial = db'.view v.serial := by
          funext m
          rw [Db.view, Db.view]
          by_cases hm : m = n
          · rw [hm, hself, hwr.older v.serial hlt]
          · rw [hother m hm]
        rw [hold]
      · have hnew : Spec.setNode (db.view w.serial) n (F (db.view w.serial n)).1 = db'.view w.serial := by
          funext m
          rw [Spec.setNode, update_apply]
          simp only [Db.view]
          by_cases hm : m = n
          · rw [if_pos hm, hm, hself, hview]
          · rw [if_neg hm, hother m hm]
        simp only [Db.spec, Bool.true_eq_false, if_false]
        rw [hnew]
        rfl
      · funext m
        simp only [Db.spec]
        have h1 := hpin m
        have h2 := hrefs m
        simp only [Bool.true_eq_false, if_false]
        omega

theorem future_of_allowed (ha : db.spec.writer.isSome = true) : ∃ w, db.futureVersion = some w := by
  rw [Db.spec, isSome_map] at ha
  exact isSome_iff_exists.1 ha

variable {mem : Mem} {type : RdType}

theorem steps_addrdataset (hi : Inv db) {ttl : ℕ} {rdata : Slab} {o : AddOptions}
    (ha : Allowed db.spec (.addrdataset mem n type ttl rdata o)) : Steps ops db (.addrdataset mem n type ttl rdata o) := by
  obtain ⟨w, hw⟩ := future_of_allowed ha.1
  by_cases hm : mem.header = false
  · refine .inl ⟨db, .result .nomemory, ?_, hi, ?_⟩
    · rw [step, addrdataset, if_pos hm]
      rfl
    · rw [Spec.step, if_pos hm]
  obtain ⟨db', r, hrun, hinv, hspec⟩ := changing_spec hi hw mem.changed n
    (fun node serial => node.add ops mem.result serial ⟨serial, ttl, type, false, some rdata⟩ o false)
    (fun x => x.add ops mem.result o type ttl (some rdata)) (fun node hok => add_spec ops mem.result o hok type ttl (some rdata))
  refine .inl ⟨db', .result r, ?_, hinv, ?_⟩
  · rw [step, addrdataset, if_neg hm, hrun]
    rfl
  · rw [Spec.step, if_neg hm, hspec]

theorem steps_subtractrdataset (hi : Inv db) {ttl : ℕ} {rdata : Slab}
    {exact : Bool} (ha : Allowed db.spec (.subtractrdataset mem n type ttl rdata exact)) :
    Steps ops db (.subtractrdataset mem n type ttl rdata exact) := by
  obtain ⟨w, hw⟩ := future_of_allowed ha.1
  by_cases hm : mem.header = false
  · refine .inl ⟨db, .result .nomemory, ?_, hi, ?_⟩
    · rw [step, subtractrdataset, if_pos hm]
      rfl
    · rw [Spec.step, if_pos hm]
  obtain ⟨db', r, hrun, hinv, hspec⟩ := changing_spec hi hw mem.changed n
    (fun node serial => node.subtract ops mem.result serial type ttl rdata exact)
    (fun x => x.subtract ops mem.result type ttl rdata exact) (fun node hok => subtract_spec ops mem.result hok type ttl rdata exact)
  refine .inl ⟨db', .result r, ?_, hinv, ?_⟩
  · rw [step, subtractrdataset, if_neg hm, hrun]
    rfl
  · rw [Spec.step, if_neg hm, hspec]

theorem steps_deleterdataset (hi : Inv db)
    (ha : Allowed db.spec (.deleterdataset mem n type)) : Steps ops db (.deleterdataset mem n type) := by
  obtain ⟨w, hw⟩ := future_of_allowed ha.1
  have hsame : ∀ r, step ops db (.deleterdataset mem n type) = .ok (db, .result r) →
      db.spec.step ops (.deleterdataset mem n type) = (db.spec, .result r) → Steps ops db (.deleterdataset mem n type) :=
    fun r hrun hspec => .inl ⟨db, _, hrun, hi, hspec⟩
  rw [step, deleterdataset, Spec.step] at hsame
  by_cases hany : type.base = any
  · rw [if_pos hany, if_pos hany] at hsame
    exact hsame .notimplemented rfl rfl
  by_cases hsig : type.base = rrsig ∧ type.covers = 0
  · rw [if_neg hany, if_neg hany, if_pos hsig, if_pos hsig] at hsame
    exact hsame .notimplemented rfl rfl
  by_cases hm : mem.header = false
  · rw [if_neg hany, if_neg hany, if_neg hsig, if_neg hsig, if_pos hm, if_pos hm] at hsame
    exact hsame .nomemory rfl rfl
  obtain ⟨db', r, hrun, hinv, hspec⟩ := changing_spec hi hw mem.changed n
    (fun node serial => node.add ops mem.result serial ⟨serial, 0, type, false, none⟩ ⟨false, false, false⟩ false)
    (fun x => x.add ops mem.result ⟨false, false, false⟩ type 0 none) (fun node hok => add_spec ops mem.result ⟨false, false, false⟩ hok type 0 none)
  refine .inl ⟨db', .result r, ?_, hinv, ?_⟩
  · rw [step, deleterdataset, if_neg hany, if_neg hsig, if_neg hm, hrun]
    rfl
  · rw [Spec.step, if_neg hany, if_neg hsig, if_neg hm, hspec]

/-! ### Nodes -/

theorem steps_findrdataset (hi : Inv db) {v : ℕ} (ha : Allowed db.spec (.findrdataset v n type)) :
    Steps ops db (.findrdataset v n type) := by
  refine .inl ⟨db, _, rfl, hi, ?_⟩
  have hl := ha.1
  rw [lookup_spec, isSome_map] at hl
  obtain ⟨u, hu⟩ := isSome_iff_exists.1 hl
  rw [Spec.step, lookup_spec, hu, map_some, bind_some, (version_mem hu).1,
    zoneFindrdataset_eq (hi.nodes n).ok]
  rfl

variable {nodes : ℕ → Node}

theorem inv_nodes (hi : Inv db) (hn : ∀ n, NodeInv db n (nodes n))
    (hp : ∀ n, db.pinned n ≤ (nodes n).references) : Inv { db with nodes := nodes } :=
  ⟨hi.sorted, hi.current, hi.least, hi.readers, hi.writer, hi.below, hi.wraps, hp,
    fun n => ⟨(hn n).ok, (hn n).bounded, (hn n).live, (hn n).own, (hn n).old, (hn n).new⟩⟩

theorem spec_nodes (hi : Inv db) (nodes : ℕ → Node)
    (hv : ∀ n v, db.leastSerial ≤ v → view v (nodes n).data = view v (db.nodes n).data) :
    ({ db with nodes := nodes } : Db).spec =
      { db.spec with held := fun n => (nodes n).references - db.pinned n } := by
  have hview : ∀ v, db.leastSerial ≤ v → ({ db with nodes := nodes } : Db).view v = db.view v :=
    fun v hle => funext fun n => hv n v hle
  refine Spec.ext ?_ ?_ rfl rfl
  · simp only [Db.spec]
    refine map_congr_left (fun v hvm => ?_)
    rw [hview v.serial (hi.least_le v hvm)]
  · refine Option.map_congr (fun w hw => ?_)
    have h1 := hi.least_le_current
    have h2 := (hi.writer w hw).2.2.1
    rw [hview w.serial (by omega)]

theorem steps_attachnode (hi : Inv db) (n : ℕ) : Steps ops db (.attachnode n) := by
  let nodes := update db.nodes n
    ⟨(db.nodes n).data, (db.nodes n).dirty, (db.nodes n).references + 1⟩
  have hdata : ∀ m, (nodes m).data = (db.nodes m).data := by
    intro m
    simp only [nodes, update_apply]
    split
    · next h => rw [h]
    · rfl
  have hrefs : ∀ m, (nodes m).references = (db.nodes m).references + if m = n then 1 else 0 := by
    intro m
    simp only [nodes, update_apply]
    split
    · next h => rw [h]
    · rfl
  refine .inl ⟨{ db with nodes := nodes }, .done, rfl, inv_nodes hi (fun m => (hi.nodes m).of_data (hdata m))
    (fun m => ?_), ?_⟩
  · rw [hrefs]
    exact Nat.le_add_right_of_le (hi.pins m)
  · rw [spec_nodes hi nodes (fun m v _ => by rw [hdata]), Spec.step]
    refine Prod.ext (Spec.ext rfl rfl rfl (funext fun m => ?_)) rfl
    have hp := hi.pins m
    simp only [update_apply, Db.spec, hrefs]
    split
    · next h =>
        rw [h] at hp ⊢
        omega
    · rfl

theorem steps_detachnode (hi : Inv db) (ha : Allowed db.spec (.detachnode n)) : Steps ops db (.detachnode n) := by
  have ha : 0 < (db.nodes n).references - db.pinned n := ha
  obtain ⟨node', hrun, hn, href, hview⟩ := decrementReference_spec (hi.nodes n) (by omega)
  let nodes := update db.nodes n node'
  have hstep : step ops db (.detachnode n) = .ok ({ db with nodes := nodes }, .done) := by
    rw [step, detachnode, hrun]
    rfl
  have hrefs : ∀ m, (nodes m).references = (db.nodes m).references - if m = n then 1 else 0 := by
    intro m
    simp only [nodes, update_apply]
    split
    · next h =>
        rw [h]
        omega
    · rfl
  refine .inl ⟨{ db with nodes := nodes }, .done, hstep, inv_nodes hi (fun m => ?_) (fun m => ?_), ?_⟩
  · simp only [nodes, update_apply]
    split
    · next h => exact h ▸ hn
    · exact hi.nodes m
  · rw [hrefs]
    have hp := hi.pins m
    split
    · next h =>
        rw [h] at hp ⊢
        omega
    · omega
  · rw [spec_nodes hi nodes (fun m v hle => ?_), Spec.step]
    · refine Prod.ext (Spec.ext rfl rfl rfl (funext fun m => ?_)) rfl
      simp only [update_apply, Db.spec, hrefs]
      split
      · next h =>
          rw [h]
          omega
      · rfl
    · simp only [nodes, update_apply]
      split
      · next h => rw [h, hview v hle]
      · rfl

/-! ### Closing -/

theorem release_ne {v : ℕ} {s : Snapshot} (h : s.serial ≠ v) : Spec.release v s = some s := if_neg h

theorem closeversion_shared (hi : Inv db) (commit : Bool) (hu : db.version u.serial = some u)
    (hr : 1 < u.references) (hc : commit = true → u.writer = false) :
    closeversion db u.serial commit = .ok (db.setReferences u.serial (u.references - 1)) ∧
      Inv (db.setReferences u.serial (u.references - 1)) := by
  refine ⟨?_, hi.setReferences u.serial (by omega)⟩
  have hins : (!commit || !u.writer) = true := by
    cases commit with
    | false => rfl
    | true => simp [hc rfl]
  rw [closeversion, hu]
  simp only
  rw [insist_true (by simp; omega), ok_bind, if_pos (by omega), insist_true hins]
  rfl

theorem closeReader_split (hi : Inv db) (hu : u ∈ db.openVersions) (hne : u.serial ≠ db.currentSerial) :
    ∃ newer g older, db.openVersions = newer ++ g :: u :: older ∧ u.serial < g.serial ∧
      (u.serial = db.leastSerial → older = [] ∧ u.changed = []) := by
  obtain ⟨newer', older, hsplit⟩ := append_of_mem hu
  obtain ⟨c, cs, hc, hcs⟩ := hi.current
  have hsort := hi.sorted
  have hnil : newer' ≠ [] := by
    rintro rfl
    rw [hsplit, nil_append] at hc
    exact hne (by rw [(cons.inj hc).1, hcs])
  obtain ⟨newer, g, rfl⟩ : ∃ newer g, newer' = newer ++ [g] :=
    ⟨newer'.dropLast, newer'.getLast hnil, (dropLast_append_getLast hnil).symm⟩
  have hopen : db.openVersions = newer ++ g :: u :: older := by
    rw [hsplit, append_assoc]
    rfl
  rw [hopen] at hsort
  obtain ⟨hgu, husort⟩ := pairwise_cons.1 (pairwise_append.1 hsort).2.1
  refine ⟨newer, g, older, hopen, hgu u mem_cons_self, fun hl => ?_⟩
  have hold : older = [] := by
    refine eq_nil_iff_forall_not_mem.2 (fun x hx => ?_)
    have h1 := (pairwise_cons.1 husort).1 x hx
    have h2 := hi.least_le x (by rw [hopen]; simp [hx])
    omega
  obtain ⟨vs, l, hl', -, hch⟩ := hi.least
  rw [hopen, hold] at hl'
  have hlast : [u] = [l] := by
    have h := congrArg getLast? hl'
    simpa using h
  exact ⟨hold, by rw [(cons.inj hlast).1]; exact hch⟩

/-- The database with other nodes and open versions. -/
def Db.opening (db : Db) (vs : List Version) (least : ℕ) (nodes : ℕ → Node) : Db :=
  { db with nodes := nodes, openVersions := vs, leastSerial := least }

variable {newer older : List Version}

/-- Dropping the version `u`, whose records move to the next newer version `g` or, when `u` was the
least one, into the cleanup list together with those of `g`. -/
theorem nodeInv_drop {g g' : Version} {least : ℕ}
    (nodes : ℕ → Node) (hn : NodeInv db n node) (hopen : db.openVersions = newer ++ g :: u :: older) (hug : u.serial < g.serial)
    (hle : db.leastSerial ≤ least) (hg : g'.serial = g.serial)
    (hmove : ∀ r, r ∈ g.changed ∨ r ∈ u.changed → r ∈ g'.changed ∨ g.serial ≤ least) :
    NodeInv (db.opening (newer ++ g' :: older) least nodes) n node := by
  refine ⟨hn.ok, hn.bounded, hn.live, hn.own, fun h ha hl hc => ?_, hn.new⟩
  obtain hle' | ⟨v, hv, hsv, hr⟩ := hn.old h ha hl hc
  · exact .inl (hle'.trans hle)
  rw [hopen] at hv
  have hgmem : g' ∈ newer ++ g' :: older := by simp
  have hcase : (v = g ∨ v = u) ∨ v ∈ newer ++ g' :: older := by
    simp only [mem_append, mem_cons] at hv ⊢
    tauto
  obtain hgu | hv := hcase
  · have hvg : v.serial ≤ g.serial := by
      obtain rfl | rfl := hgu
      · exact Nat.le_refl _
      · omega
    obtain hr' | hle'' := hmove _ (hgu.imp (fun e => e ▸ hr) (fun e => e ▸ hr))
    · exact .inr ⟨g', hgmem, by omega, hr'⟩
    · exact .inl (by simp only [Db.opening]; omega)
  · exact .inr ⟨v, hv, hsv, hr⟩

theorem inv_drop (hi : Inv db) {g g' : Version} {least : ℕ}
    (hopen : db.openVersions = newer ++ g :: u :: older) (hg : g'.serial = g.serial) (hgw : g'.writer = g.writer)
    (hgr : g'.references = g.references) (hlast : ∃ vs v, newer ++ g' :: older = vs ++ [v] ∧ v.serial = least ∧ v.changed = [])
    (hn : ∀ n, NodeInv (db.opening (newer ++ g' :: older) least nodes) n (nodes n))
    (hp : ∀ n, (db.opening (newer ++ g' :: older) least nodes).pinned n ≤ (nodes n).references) :
    Inv (db.opening (newer ++ g' :: older) least nodes) := by
  have hsort := hi.sorted
  rw [hopen] at hsort
  have hsort' : (newer ++ g' :: older).Pairwise (fun u v => v.serial < u.serial) := by
    have hsub : (newer ++ g :: older).Pairwise (fun u v => v.serial < u.serial) :=
      hsort.sublist ((Sublist.refl newer).append ((sublist_cons_self u older).cons_cons g))
    obtain ⟨h1, h2, h3⟩ := pairwise_append.1 hsub
    obtain ⟨h4, h5⟩ := pairwise_cons.1 h2
    refine pairwise_append.2 ⟨h1, pairwise_cons.2 ⟨fun x hx => ?_, h5⟩, fun a ha b hb => ?_⟩
    · rw [hg]
      exact h4 x hx
    · obtain rfl | hb := mem_cons.1 hb
      · rw [hg]
        exact h3 a ha g mem_cons_self
      · exact h3 a ha b (mem_cons_of_mem _ hb)
  refine ⟨hsort', ?_, hlast, fun v hv => ?_, hi.writer, hi.below, hi.wraps, hp, hn⟩
  · obtain ⟨c, cs, hc, hcs⟩ := hi.current
    cases newer with
    | nil =>
      rw [hopen, nil_append] at hc
      exact ⟨g', older, rfl, by rw [hg, (cons.inj hc).1]; exact hcs⟩
    | cons a newer =>
      rw [hopen, cons_append] at hc
      exact ⟨a, newer ++ g' :: older, rfl, by rw [(cons.inj hc).1]; exact hcs⟩
  · have hread : ∀ x ∈ newer ++ g :: older, x.writer = false ∧ 0 < x.references := by
      intro x hx
      refine hi.readers x ?_
      rw [hopen]
      simp only [mem_append, mem_cons] at hx ⊢
      tauto
    simp only [Db.opening, mem_append, mem_cons] at hv
    obtain hv | rfl | hv := hv
    · exact hread v (mem_append_left _ hv)
    · rw [hgw, hgr]
      exact hread g (mem_append_right _ mem_cons_self)
    · exact hread v (mem_append_right _ (mem_cons_of_mem _ hv))

/-- What the specification keeps of a version. -/
abbrev Db.snapshot (db : Db) (v : Version) : Snapshot := ⟨v.serial, v.references, db.view v.serial⟩

theorem filterMap_release {v : ℕ} {vs : List Version} (h : ∀ x ∈ vs, x.serial ≠ v) :
    (vs.map db.snapshot).filterMap (Spec.release v) = vs.map db.snapshot := by
  rw [filterMap_map, ← filterMap_eq_map]
  exact filterMap_congr (fun x hx => release_ne (h x hx))

theorem spec_drop (hi : Inv db) {g g' : Version} {least : ℕ}
    (hopen : db.openVersions = newer ++ g :: u :: older) (hg : g'.serial = g.serial)
    (hgr : g'.references = g.references) (hur : u.references = 1)
    (hleast : ∀ v ∈ newer ++ g :: older, least ≤ v.serial)
    (hview : ∀ n v, least ≤ v → view v (nodes n).data = view v (db.nodes n).data)
    (hheld : ∀ n, (nodes n).references - (db.opening (newer ++ g' :: older) least nodes).pinned n =
      (db.nodes n).references - db.pinned n) :
    (db.opening (newer ++ g' :: older) least nodes).spec =
      { db.spec with opened := db.spec.opened.filterMap (Spec.release u.serial) } := by
  have hsort := hi.sorted
  rw [hopen] at hsort
  have hsplit : newer ++ g :: u :: older = (newer ++ [g]) ++ u :: older := by simp
  rw [hsplit] at hsort
  obtain ⟨hne1, hne2⟩ := ne_of_sorted hsort
  have hviews : ∀ v, least ≤ v → (db.opening (newer ++ g' :: older) least nodes).view v = db.view v :=
    fun v hv => funext fun n => hview n v hv
  have hgone : Spec.release u.serial ⟨u.serial, u.references, db.view u.serial⟩ = none := by
    rw [Spec.release, if_pos rfl, if_neg (by simp [hur])]
  refine Spec.ext ?_ ?_ rfl ?_
  · have hsame : ∀ v ∈ newer ++ g :: older,
        (⟨v.serial, v.references, (db.opening (newer ++ g' :: older) least nodes).view v.serial⟩ : Snapshot) =
          ⟨v.serial, v.references, db.view v.serial⟩ :=
      fun v hv => by rw [hviews v.serial (hleast v hv)]
    have hold : db.spec.opened.filterMap (Spec.release u.serial) =
        (newer ++ g :: older).map (fun v => ⟨v.serial, v.references, db.view v.serial⟩) := by
      have hopened : db.spec.opened = ((newer ++ [g]) ++ u :: older).map
          (fun v => ⟨v.serial, v.references, db.view v.serial⟩) := by rw [Db.spec, hopen, hsplit]
      rw [hopened, map_append, filterMap_append, filterMap_release hne1, map_cons, filterMap_cons, hgone]
      rw [filterMap_release hne2]
      simp
    rw [hold, ← map_congr_left hsame]
    simp only [Db.spec, Db.opening, map_append, map_cons, hg, hgr]
  · refine Option.map_congr (fun w hw => ?_)
    have h1 := (hi.writer w hw).2.2.1
    have h2 := hi.le_current g (by rw [hopen]; simp)
    have h3 := hleast g (by simp)
    rw [hviews w.serial (by omega)]
  · funext n
    exact hheld n

/-- The last reference to a version that is not the newest. -/
theorem closeReader_spec (hi : Inv db) (hu : u ∈ db.openVersions) (hne : u.serial ≠ db.currentSerial)
    (hur : u.references = 1) :
    ∃ db', closeReader db u = .ok db' ∧ Inv db' ∧
      db'.spec = { db.spec with opened := db.spec.opened.filterMap (Spec.release u.serial) } := by
  obtain ⟨newer, g, older, hopen, hug, hlast⟩ := closeReader_split hi hu hne
  have hsort := hi.sorted
  have hprev : prevVersion u.serial db.openVersions = some g := by
    rw [hopen] at hsort ⊢
    exact prevVersion_split newer hsort
  rw [hopen] at hsort
  have hsu : ((newer ++ [g]) ++ u :: older).Pairwise (fun u v => v.serial < u.serial) := by simpa using hsort
  have hsg : (newer ++ g :: (u :: older)).Pairwise (fun u v => v.serial < u.serial) := hsort
  obtain ⟨hne1, hne2⟩ := ne_of_sorted hsu
  -- the list after both updates
  have hlist : ∀ f : Version → Version, (f g).serial = g.serial →
      unlink u.serial (modifyVersion g.serial f db.openVersions) = newer ++ f g :: older := by
    intro f hf
    rw [hopen, modifyVersion_split newer f hsg]
    have hassoc : newer ++ f g :: u :: older = (newer ++ [f g]) ++ u :: older := by simp
    rw [hassoc, unlink_split (newer ++ [f g]) rfl ?_ hne2]
    · simp
    · intro x hx
      obtain hx | hx := mem_append.1 hx
      · exact hne1 x (mem_append_left _ hx)
      · rw [mem_singleton.1 hx, hf]
        omega
  have hrecords : db.records = (newer.flatMap Version.changed ++ g.changed ++ u.changed ++ older.flatMap Version.changed) ++
      db.futureVersion.elim [] Version.changed := by
    rw [Db.records, hopen]
    simp
  rw [closeReader, if_pos hne, hprev, some_or]
  simp only
  rw [insist_true (by simpa using hug), ok_bind]
  by_cases hl : u.serial = db.leastSerial
  · obtain ⟨rfl, hch⟩ := hlast hl
    rw [if_pos hl, insist_true (by simpa using hch), ok_bind]
    let g' : Version := { g with changed := [] }
    have hn : ∀ n, NodeInv (db.opening (newer ++ [g']) g.serial db.nodes) n (db.nodes n) := fun n =>
      nodeInv_drop db.nodes (hi.nodes n) hopen hug (by omega) rfl (fun _ _ => .inr (Nat.le_refl _))
    have hpin : ∀ nodes n, (db.opening (newer ++ [g']) g.serial nodes).pinned n + count n g.changed = db.pinned n := by
      intro nodes n
      have h' : (db.opening (newer ++ [g']) g.serial nodes).records =
          newer.flatMap Version.changed ++ db.futureVersion.elim [] Version.changed := by
        simp [Db.records, Db.opening, g']
      rw [Db.pinned, Db.pinned, hrecords, h', hch]
      simp only [count_append, flatMap_nil, append_nil]
      omega
    obtain ⟨nodes', hrun, hn', href, hview⟩ := cleanup_spec (db.opening (newer ++ [g']) g.serial db.nodes) id
      (NodeInv (db.opening (newer ++ [g']) g.serial db.nodes)) (fun _ => True) (fun n node h => h) (fun n node h => ⟨h, rfl, fun _ _ => rfl⟩)
      g.changed db.nodes (fun n => by rw [hpin]; exact hi.pins n) hn (fun n _ => hn n)
    have hleast : ∀ v ∈ newer ++ [g], g.serial ≤ v.serial := by
      intro v hv
      obtain hv | hv := mem_append.1 hv
      · have := (pairwise_append.1 hsg).2.2 v hv g mem_cons_self
        omega
      · rw [mem_singleton.1 hv]
    have hp := hi.pins
    refine ⟨db.opening (newer ++ [g']) g.serial nodes', ?_, ?_, ?_⟩
    · rw [hlist (fun v => { v with changed := [] }) rfl]
      have hrun' : cleanup g.serial id g.changed db.nodes = .ok nodes' := hrun
      rw [hrun']
      rfl
    · refine inv_drop hi hopen rfl rfl rfl ⟨newer, g', rfl, rfl, rfl⟩ (fun n => ?_) (fun n => ?_)
      · have := hn' n
        exact ⟨this.ok, this.bounded, this.live, this.own, this.old, this.new⟩
      · have h1 := hpin nodes' n
        have h2 := href n
        have h3 := hp n
        omega
    · refine spec_drop hi hopen rfl rfl hur hleast (fun n v hv => hview n v hv trivial) (fun n => ?_)
      have h1 := hpin nodes' n
      have h2 := href n
      omega
  rw [if_neg hl]
  let g' : Version := { g with changed := g.changed ++ u.changed }
  have hrec : (db.opening (newer ++ g' :: older) db.leastSerial db.nodes).records = db.records := by
    rw [hrecords]
    simp [Db.records, Db.opening, g']
  refine ⟨db.opening (newer ++ g' :: older) db.leastSerial db.nodes, ?_, ?_, ?_⟩
  · rw [hlist (fun v => { v with changed := v.changed ++ u.changed }) rfl]
    rfl
  · refine inv_drop hi hopen rfl rfl rfl ?_ (fun n => ?_) (fun n => ?_)
    · obtain ⟨vs, l, hvs, hls, hlc⟩ := hi.least
      -- the least version is none of the two, so it is among the older ones
      have hold : older ≠ [] := by
        rintro rfl
        rw [hopen] at hvs
        have h := congrArg getLast? hvs
        simp only [getLast?_append, getLast?_cons_cons, getLast?_singleton, some_or,
          some_inj] at h
        exact hl (by rw [h]; exact hls)
      obtain ⟨os, o, rfl⟩ : ∃ os o, older = os ++ [o] :=
        ⟨older.dropLast, older.getLast hold, (dropLast_append_getLast hold).symm⟩
      have ho : o = l := by
        have hassoc : newer ++ g :: u :: (os ++ [o]) = (newer ++ g :: u :: os) ++ [o] := by simp
        rw [hopen, hassoc] at hvs
        exact (append_inj' hvs rfl).2 |> cons.inj |>.1
      exact ⟨newer ++ g' :: os, o, by simp, ho ▸ hls, ho ▸ hlc⟩
    · exact nodeInv_drop db.nodes (hi.nodes n) hopen hug (Nat.le_refl _) rfl
        (fun r hr => .inl (mem_append.2 hr))
    · rw [Db.pinned, hrec]
      exact hi.pins n
  · refine spec_drop hi hopen rfl rfl hur (fun v hv => hi.least_le v ?_) (fun _ _ _ => rfl) (fun n => ?_)
    · rw [hopen]
      simp only [mem_append, mem_cons] at hv ⊢
      tauto
    · rw [Db.pinned, hrec]
      rfl

/-! ### Rollback -/

theorem nodeInv_rollback {w : Version} (hw : db.futureVersion = some w)
    (hn : NodeInv db n node ∨ NodeInv { db with futureVersion := none } n node) :
    NodeInv { db with futureVersion := none } n (rollbackNode w.serial node) := by
  have hok : DataOk node.data := hn.elim (fun h => h.ok) (fun h => h.ok)
  have hbd : ∀ h, Stands node.data h → h.serial < db.limit := hn.elim (fun h => h.bounded) (fun h => h.bounded)
  have hlive : ∀ h, Stands node.data h → h.ignore = false → h.serial ≠ w.serial → h.serial ≤ db.currentSerial := by
    intro h hs hl hne
    cases hn with
    | inl hn =>
      refine (hn.live h hs hl).resolve_right ?_
      rintro ⟨x, hx, he⟩
      rw [hw] at hx
      exact hne (by rw [he, some_inj.1 hx])
    | inr hn =>
      refine (hn.live h hs hl).resolve_right ?_
      rintro ⟨x, hx, -⟩
      cases hx
  have hold := hn.elim (fun h => h.old) (fun h => h.old)
  refine ⟨dataOk_rollbackNode w.serial hok, fun h hs => ?_, fun h hs hl => .inl ?_, (fun x hx => by cases hx),
    fun h ha hl hc => ?_, (fun x hx => by cases hx)⟩
  · obtain ⟨h0, hs0, rfl⟩ := stands_rollbackNode hs
    rw [Header.giveUp_serial]
    exact hbd h0 hs0
  · obtain ⟨h0, hs0, rfl⟩ := stands_rollbackNode hs
    obtain ⟨hne, he⟩ := Header.giveUp_ignore hl
    rw [he] at hl ⊢
    exact hlive h0 hs0 hl hne
  · obtain ⟨h0, ha0, rfl⟩ := above_rollbackNode ha
    obtain ⟨hne, he⟩ := Header.giveUp_ignore hl
    rw [he] at hl hc ⊢
    exact hold h0 ha0 hl hc

theorem rollbackVersion_spec (hi : Inv db) {w : Version} (hw : db.futureVersion = some w) :
    ∃ db', rollbackVersion db w = .ok db' ∧ Inv db' ∧ db'.spec = { db.spec with writer := none } := by
  let db0 : Db := { db with futureVersion := none }
  have hpin : ∀ n, db0.pinned n + count n w.changed = db.pinned n := by
    intro n
    rw [Db.pinned, Db.pinned, Db.records, Db.records, hw]
    simp only [count_append, elim_none, elim_some, db0]
    rfl
  have huntouched : ∀ n, n ∉ w.changed.map Changed.node → NodeInv db0 n (db.nodes n) := by
    intro n hno
    have hn := hi.nodes n
    refine ⟨hn.ok, hn.bounded, fun h hs hl => .inl ?_, (fun x hx => by cases hx), hn.old, (fun x hx => by cases hx)⟩
    refine (hn.live h hs hl).resolve_right ?_
    rintro ⟨x, hx, he⟩
    rw [hw] at hx
    obtain rfl := some_inj.1 hx
    exact hno (hn.own w hw h hs he).2
  obtain ⟨nodes', hrun, hn', href, hview⟩ := cleanup_spec db0 (rollbackNode w.serial)
    (fun n node => NodeInv db n node ∨ NodeInv db0 n node) (fun v => v < w.serial)
    (fun n node h => .inr h)
    (fun n node h => ⟨nodeInv_rollback hw h, rfl, fun v hv => view_rollbackNode hv node⟩)
    w.changed db.nodes (fun n => by rw [hpin]; exact hi.pins n) (fun n => .inl (hi.nodes n)) huntouched
  have hrun' : cleanup db.leastSerial (rollbackNode w.serial) w.changed db.nodes = .ok nodes' := hrun
  refine ⟨{ db0 with nodes := nodes' }, ?_, ?_, ?_⟩
  · rw [rollbackVersion, hrun', ok_bind]
    rfl
  · refine ⟨hi.sorted, hi.current, hi.least, hi.readers, (fun x hx => by cases hx), hi.below, hi.wraps, fun n => ?_,
      fun n => ?_⟩
    · have h1 := hpin n
      have h2 := href n
      have h3 := hi.pins n
      have h4 : ({ db0 with nodes := nodes' } : Db).pinned n = db0.pinned n := rfl
      simp only [h4]
      omega
    · have := hn' n
      exact ⟨this.ok, this.bounded, this.live, this.own, this.old, this.new⟩
  · refine Spec.ext ?_ rfl rfl (funext fun n => ?_)
    · refine map_congr_left (fun v hv => ?_)
      have h1 := hi.least_le v hv
      have h2 := hi.le_current v hv
      have h3 := (hi.writer w hw).2.2.1
      have : ({ db0 with nodes := nodes' } : Db).view v.serial = db.view v.serial :=
        funext fun n => hview n v.serial h1 (by omega)
      rw [this]
    · have h1 := hpin n
      have h2 := href n
      have h4 : ({ db0 with nodes := nodes' } : Db).pinned n = db0.pinned n := rfl
      simp only [Db.spec, h4]
      omega

/-! ### Commit -/

/-- The versions after a commit: `w` with the records `changed` is the newest, `opened` are the others. -/
def Db.committed (db : Db) (w : Version) (changed : List Changed) (opened : List Version) (least : ℕ)
    (nodes : ℕ → Node) : Db :=
  { nodes := nodes
    currentSerial := w.serial
    openVersions := { w with writer := false, references := 1, changed := changed } :: opened
    futureVersion := none
    leastSerial := least
    nextSerial := db.nextSerial }

/-- What a commit does to the versions and their records. -/
structure Commits (db : Db) (w : Version) (changed cleanupList : List Changed) (opened : List Version) (least : ℕ) :
    Prop where
  falls : (opened.Pairwise fun u v => v.serial < u.serial) ∧ ∀ u ∈ opened, u.serial ≤ db.currentSerial
  readers : ∀ u ∈ opened, u.writer = false ∧ 0 < u.references
  alone : opened = [] → least = w.serial ∧ changed = []
  others : opened ≠ [] → least = db.leastSerial ∧ (∀ r ∈ w.changed, r.dirty = true → r ∈ changed) ∧
    ∃ vs v, opened = vs ++ [v] ∧ v.serial = db.leastSerial ∧ v.changed = []
  kept : ∀ v ∈ db.openVersions, (∃ u ∈ opened, u.serial = v.serial ∧ u.changed = v.changed) ∨
    (∀ r ∈ v.changed, r ∈ changed) ∨ opened = []
  records : ∀ n, count n changed + count n (opened.flatMap Version.changed) + count n cleanupList = db.pinned n

section commits
variable {w : Version} {changed cleanupList : List Changed} {opened : List Version} {least : ℕ}

theorem pinned_committed (nodes : ℕ → Node) (n : ℕ) : (db.committed w changed opened least nodes).pinned n =
    count n changed + count n (opened.flatMap Version.changed) := by
  rw [Db.pinned, Db.records, Db.committed]
  simp only [elim_none, append_nil, flatMap_cons, count_append]

theorem Commits.least_le (hi : Inv db) (hw : db.futureVersion = some w)
    (hc : Commits db w changed cleanupList opened least) : db.leastSerial ≤ least ∧ least ≤ w.serial := by
  have h1 := hi.least_le_current
  have h2 := (hi.writer w hw).2.2.1
  by_cases ho : opened = []
  · have := (hc.alone ho).1
    omega
  · have := (hc.others ho).1
    omega

theorem Commits.nodeInv (hi : Inv db) (hw : db.futureVersion = some w)
    (hc : Commits db w changed cleanupList opened least) (nodes : ℕ → Node) {node : Node}
    (hn : NodeInv db n node) : NodeInv (db.committed w changed opened least nodes) n node := by
  have hcur := (hi.writer w hw).2.2.1
  have hlive : ∀ h, Stands node.data h → h.ignore = false → h.serial ≤ db.currentSerial ∨ h.serial = w.serial := by
    intro h hs hl
    refine (hn.live h hs hl).imp_right ?_
    rintro ⟨x, hx, he⟩
    rw [hw] at hx
    rw [he, some_inj.1 hx]
  refine ⟨hn.ok, hn.bounded, fun h hs hl => .inl ?_, (fun x hx => by cases hx), fun h ha hl hle => ?_,
    (fun x hx => by cases hx)⟩
  · simp only [Db.committed]
    obtain h1 | h1 := hlive h hs hl
    · omega
    · omega
  · simp only [Db.committed] at hle ⊢
    by_cases ho : opened = []
    · rw [(hc.alone ho).1]
      exact .inl hle
    obtain ⟨hleast, hdirty, -⟩ := hc.others ho
    rw [hleast]
    -- a record in the list of the new version
    have hnew : ⟨n, true⟩ ∈ changed → ∃ v ∈ ({ w with writer := false, references := 1, changed := changed } :: opened),
        h.serial ≤ v.serial ∧ ⟨n, true⟩ ∈ v.changed := fun hr => ⟨_, mem_cons_self, hle, hr⟩
    obtain h1 | h1 := hlive h ha.stands hl
    · refine (hn.old h ha hl h1).imp_right ?_
      rintro ⟨v, hv, hsv, hr⟩
      obtain ⟨u, hu, hus, huc⟩ | hin | hnil := hc.kept v hv
      · exact ⟨u, mem_cons_of_mem _ hu, by omega, by rw [huc]; exact hr⟩
      · exact hnew (hin _ hr)
      · exact absurd hnil ho
    · exact .inr (hnew (hdirty _ (hn.new w hw h ha h1) rfl))

theorem Commits.inv (hi : Inv db) (hw : db.futureVersion = some w) (hc : Commits db w changed cleanupList opened least)
    (hn : ∀ n, NodeInv (db.committed w changed opened least nodes) n (nodes n))
    (href : ∀ n, (nodes n).references + count n cleanupList = (db.nodes n).references) :
    Inv (db.committed w changed opened least nodes) := by
  obtain ⟨-, -, hcur, hlim⟩ := hi.writer w hw
  refine ⟨?_, ⟨_, opened, rfl, rfl⟩, ?_, ?_, (fun x hx => by cases hx), ?_, hi.wraps, fun n => ?_, hn⟩
  · refine pairwise_cons.2 ⟨fun u hu => ?_, hc.falls.1⟩
    have := hc.falls.2 u hu
    simp only
    omega
  · by_cases ho : opened = []
    · obtain ⟨hl, hch⟩ := hc.alone ho
      exact ⟨[], { w with writer := false, references := 1, changed := changed }, by rw [Db.committed, ho]; rfl,
        hl.symm, hch⟩
    · obtain ⟨hl, -, vs, v, hvs, hvl, hvc⟩ := hc.others ho
      exact ⟨{ w with writer := false, references := 1, changed := changed } :: vs, v,
        by rw [Db.committed, hvs]; rfl, by rw [hvl]; exact hl.symm, hvc⟩
  · intro v hv
    obtain rfl | hv := mem_cons.1 hv
    · exact ⟨rfl, Nat.one_pos⟩
    · exact hc.readers v hv
  · have : (db.committed w changed opened least nodes).limit = db.limit := rfl
    rw [this, ← hlim]
    exact Nat.lt_succ_self _
  · have h1 := hc.records n
    have h2 := href n
    have h3 := hi.pins n
    have h4 : ((db.committed w changed opened least nodes).nodes n).references = (nodes n).references := rfl
    rw [pinned_committed, h4]
    omega

abbrev Db.committedSpec (db : Db) (w : Version) : Spec :=
  { db.spec with
    opened := ⟨w.serial, 1, db.view w.serial⟩ :: db.spec.opened.filterMap (Spec.release db.currentSerial)
    writer := none }

theorem Commits.spec (hi : Inv db) (hw : db.futureVersion = some w)
    (hc : Commits db w changed cleanupList opened least)
    (href : ∀ n, (nodes n).references + count n cleanupList = (db.nodes n).references)
    (hview : ∀ n v, least ≤ v → view v (nodes n).data = view v (db.nodes n).data)
    (hopened : opened.map db.snapshot =
      db.spec.opened.filterMap (Spec.release db.currentSerial)) :
    (db.committed w changed opened least nodes).spec = db.committedSpec w := by
  have hviews : ∀ v, least ≤ v → (db.committed w changed opened least nodes).view v = db.view v :=
    fun v hv => funext fun n => hview n v hv
  have hge : ∀ u ∈ opened, least ≤ u.serial := by
    intro u hu
    have ho : opened ≠ [] := by
      rintro rfl
      exact absurd hu not_mem_nil
    obtain ⟨hl, -, vs, v, hvs, hvl, -⟩ := hc.others ho
    have hp := hc.falls.1
    rw [hvs] at hp hu
    obtain hu | hu := mem_append.1 hu
    · have := (pairwise_append.1 hp).2.2 u hu v mem_cons_self
      omega
    · rw [mem_singleton.1 hu]
      omega
  refine Spec.ext ?_ rfl rfl (funext fun n => ?_)
  · simp only [← hopened]
    refine congrArg₂ List.cons ?_ (map_congr_left (fun u hu => ?_))
    · simp only [hviews w.serial (hc.least_le hi hw).2]
    · rw [hviews u.serial (hge u hu)]
  · have h1 := hc.records n
    have h2 := href n
    have h3 := hi.pins n
    simp only [Db.spec, pinned_committed]
    have h4 : ((db.committed w changed opened least nodes).nodes n).references = (nodes n).references := rfl
    rw [h4]
    omega

end commits

theorem commits_close (hi : Inv db) {w : Version} {rest : List Version} (hw : db.futureVersion = some w)
    (hopen : db.openVersions = cur :: rest) (hcs : cur.serial = db.currentSerial) (hne : rest ≠ []) :
    Commits db w (w.changed.filter (fun r => r.dirty) ++ cur.changed) (w.changed.filter (fun r => !r.dirty)) rest
      db.leastSerial := by
  have hsort := hi.sorted
  rw [hopen] at hsort
  refine ⟨⟨(pairwise_cons.1 hsort).2, fun u hu => hi.le_current u (by rw [hopen]; simp [hu])⟩,
    fun u hu => hi.readers u (by rw [hopen]; simp [hu]), fun h => absurd h hne, fun _ => ⟨rfl, ?_, ?_⟩, ?_, ?_⟩
  · intro r hr hd
    exact mem_append_left _ (mem_filter.2 ⟨hr, hd⟩)
  · obtain ⟨vs, l, hl, hls, hlc⟩ := hi.least
    cases vs with
    | nil =>
      rw [hopen, nil_append] at hl
      exact absurd (cons.inj hl).2 hne
    | cons v vs =>
      rw [hopen, cons_append] at hl
      exact ⟨vs, l, (cons.inj hl).2, hls, hlc⟩
  · intro v hv
    rw [hopen] at hv
    obtain rfl | hv := mem_cons.1 hv
    · exact .inr (.inl (fun r hr => mem_append_right _ hr))
    · exact .inl ⟨v, hv, rfl, rfl⟩
  · intro n
    have h1 := count_filter n w.changed
    rw [Db.pinned, Db.records, hopen, hw]
    simp only [count_append, flatMap_cons, elim_some]
    omega

theorem commits_alone {w : Version} (hw : db.futureVersion = some w)
    (hopen : db.openVersions = [cur]) (hch : cur.changed = []) : Commits db w [] w.changed [] w.serial := by
  refine ⟨⟨Pairwise.nil, fun u hu => absurd hu not_mem_nil⟩, fun u hu => absurd hu not_mem_nil,
    fun _ => ⟨rfl, rfl⟩, fun h => absurd rfl h, fun _ _ => .inr (.inr rfl), fun n => ?_⟩
  rw [Db.pinned, Db.records, hopen, hw]
  simp [hch, count]

theorem commits_shared (hi : Inv db) {w : Version} {rest : List Version} (hw : db.futureVersion = some w)
    (hopen : db.openVersions = cur :: rest) (hr : 0 < r) :
    Commits db w (w.changed.filter (fun r => r.dirty)) (w.changed.filter (fun r => !r.dirty))
      ({ cur with references := r } :: rest) db.leastSerial := by
  have hsort := hi.sorted
  rw [hopen] at hsort
  obtain ⟨hcr, hrest⟩ := pairwise_cons.1 hsort
  refine ⟨⟨pairwise_cons.2 ⟨hcr, hrest⟩, fun u hu => ?_⟩, fun u hu => ?_, (fun h => by cases h),
    fun _ => ⟨rfl, ?_, ?_⟩, ?_, ?_⟩
  · obtain rfl | hu := mem_cons.1 hu
    · exact hi.le_current cur (by rw [hopen]; simp)
    · exact hi.le_current u (by rw [hopen]; simp [hu])
  · obtain rfl | hu := mem_cons.1 hu
    · exact ⟨(hi.readers cur (by rw [hopen]; simp)).1, hr⟩
    · exact hi.readers u (by rw [hopen]; simp [hu])
  · intro r hr hd
    exact mem_filter.2 ⟨hr, hd⟩
  · obtain ⟨vs, l, hl, hls, hlc⟩ := hi.least
    cases vs with
    | nil =>
      rw [hopen, nil_append] at hl
      obtain ⟨rfl, rfl⟩ := cons.inj hl
      exact ⟨[], _, rfl, hls, hlc⟩
    | cons v vs =>
      rw [hopen, cons_append] at hl
      exact ⟨_ :: vs, l, by rw [(cons.inj hl).2, cons_append], hls, hlc⟩
  · intro v hv
    rw [hopen] at hv
    obtain rfl | hv := mem_cons.1 hv
    · exact .inl ⟨_, mem_cons_self, rfl, rfl⟩
    · exact .inl ⟨v, mem_cons_of_mem _ hv, rfl, rfl⟩
  · intro n
    have h1 := count_filter n w.changed
    rw [Db.pinned, Db.records, hopen, hw]
    simp only [count_append, flatMap_cons, elim_some]
    omega

theorem Commits.run (hi : Inv db) {w : Version} {changed cleanupList : List Changed} {opened : List Version} {least : ℕ}
    (hw : db.futureVersion = some w) (hc : Commits db w changed cleanupList opened least)
    (hopened : opened.map db.snapshot =
      db.spec.opened.filterMap (Spec.release db.currentSerial)) :
    ∃ nodes, cleanup least id cleanupList db.nodes = .ok nodes ∧ Inv (db.committed w changed opened least nodes) ∧
      (db.committed w changed opened least nodes).spec = db.committedSpec w := by
  have hn : ∀ n, NodeInv (db.committed w changed opened least db.nodes) n (db.nodes n) :=
    fun n => hc.nodeInv hi hw db.nodes (hi.nodes n)
  obtain ⟨nodes, hrun, hn', href, hview⟩ := cleanup_spec (db.committed w changed opened least db.nodes) id
    (NodeInv (db.committed w changed opened least db.nodes)) (fun _ => True) (fun n node h => h)
    (fun n node h => ⟨h, rfl, fun _ _ => rfl⟩) cleanupList db.nodes
    (fun n => by
      rw [pinned_committed]
      have h1 := hc.records n
      have h2 := hi.pins n
      omega) hn (fun n _ => hn n)
  refine ⟨nodes, hrun, hc.inv hi hw (fun n => ?_) href, hc.spec hi hw href (fun n v hv => hview n v hv trivial) hopened⟩
  have := hn' n
  exact ⟨this.ok, this.bounded, this.live, this.own, this.old, this.new⟩

theorem commitVersion_spec (hi : Inv db) {w : Version} (hw : db.futureVersion = some w) (hok : w.commitOk = true) :
    ∃ db', commitVersion db w = .ok db' ∧ Inv db' ∧
      db'.spec = db.committedSpec w := by
  obtain ⟨cur, rest, hopen, hcs⟩ := hi.current
  have hmem : cur ∈ db.openVersions := by
    rw [hopen]
    exact mem_cons_self
  have hsort := hi.sorted
  rw [hopen] at hsort
  have hpos := (hi.readers cur hmem).2
  have hrne : ∀ u ∈ rest, u.serial ≠ db.currentSerial := by
    intro u hu
    have := (pairwise_cons.1 hsort).1 u hu
    omega
  have hfind : findVersion db.currentSerial db.openVersions = some cur := hcs ▸ hi.findVersion hmem
  have hspec : db.spec.opened = ⟨cur.serial, cur.references, db.view cur.serial⟩ ::
      rest.map (fun v => ⟨v.serial, v.references, db.view v.serial⟩) := by
    rw [Db.spec, hopen]
    rfl
  rw [commitVersion, insist_true hok, ok_bind, insist_true (by simp [hw]), ok_bind, hfind]
  simp only
  have hleastCur : cur.serial = db.leastSerial → rest = [] ∧ cur.changed = [] := by
    intro hl
    have hnil : rest = [] := by
      refine eq_nil_iff_forall_not_mem.2 (fun x hx => ?_)
      have h1 := (pairwise_cons.1 hsort).1 x hx
      have h2 := hi.least_le x (by rw [hopen]; simp [hx])
      omega
    obtain ⟨vs, l, hl', -, hch⟩ := hi.least
    rw [hopen, hnil] at hl'
    have hlast : [cur] = [l] := by
      have h := congrArg getLast? hl'
      simpa using h
    exact ⟨hnil, by rw [(cons.inj hlast).1]; exact hch⟩
  rw [insist_true (decide_eq_true (fun h => (hleastCur h.2).2)), ok_bind]
  by_cases hr : cur.references - 1 = 0
  · have hunlink : unlink cur.serial db.openVersions = rest := by
      rw [hopen, hcs]
      exact unlink_split [] hcs (fun u hu => absurd hu not_mem_nil) hrne
    have hgone : Spec.release db.currentSerial ⟨cur.serial, cur.references, db.view cur.serial⟩ = none := by
      rw [Spec.release, if_pos hcs, if_neg (by simp only; omega)]
    have hopened : rest.map db.snapshot =
        db.spec.opened.filterMap (Spec.release db.currentSerial) := by
      rw [hspec, filterMap_cons, hgone]
      exact (filterMap_release hrne).symm
    simp only [if_pos hr, hunlink]
    by_cases hnil : rest = []
    · have hch : cur.changed = [] := by
        obtain ⟨vs, l, hl', -, hlc⟩ := hi.least
        rw [hopen, hnil] at hl'
        have hlast : [cur] = [l] := by
          have h := congrArg getLast? hl'
          simpa using h
        rw [(cons.inj hlast).1]
        exact hlc
      rw [hnil] at hopen hopened
      obtain ⟨nodes, hrun, hinv, hsp⟩ := (commits_alone hw hopen hch).run hi hw hopened
      refine ⟨_, ?_, hinv, hsp⟩
      simp only [hnil, if_true, hch, append_nil]
      rw [hrun]
      rfl
    obtain ⟨nodes, hrun, hinv, hsp⟩ := (commits_close hi hw hopen hcs hnil).run hi hw hopened
    refine ⟨_, ?_, hinv, hsp⟩
    simp only [if_neg hnil]
    rw [hrun]
    rfl
  have hmodify : modifyVersion cur.serial (fun v => { v with references := cur.references - 1 }) db.openVersions =
      { cur with references := cur.references - 1 } :: rest := by
    rw [hopen]
    exact modifyVersion_split [] _ hsort
  have hkeep : Spec.release db.currentSerial ⟨cur.serial, cur.references, db.view cur.serial⟩ =
      some ⟨cur.serial, cur.references - 1, db.view cur.serial⟩ := by
    rw [Spec.release, if_pos hcs, if_pos (by simp only; omega)]
  have hopened : (({ cur with references := cur.references - 1 } : Version) :: rest).map
      db.snapshot =
        db.spec.opened.filterMap (Spec.release db.currentSerial) := by
    rw [hspec, filterMap_cons, hkeep]
    rw [filterMap_release hrne]
    rfl
  obtain ⟨nodes, hrun, hinv, hsp⟩ := (commits_shared hi hw hopen (Nat.pos_of_ne_zero hr)).run hi hw hopened
  refine ⟨_, ?_, hinv, hsp⟩
  simp only [if_neg hr, hmodify, cons_ne_nil, if_false]
  rw [hrun]
  rfl

/-! ### Every call -/

theorem steps_closeReader (hi : Inv db) {commit : Bool} (hu : u ∈ db.openVersions)
    (hr : u.serial = db.currentSerial → 1 < u.references) : Steps ops db (.closeversion u.serial commit) := by
  have hver := hi.version_open hu
  have hread := hi.readers u hu
  have hstep : db.spec.step ops (.closeversion u.serial commit) =
      ({ db.spec with opened := db.spec.opened.filterMap (Spec.release u.serial) }, .done) := by
    rw [Spec.step]
    cases hw : db.futureVersion with
    | none => simp [Db.spec, hw]
    | some w =>
      have hsw := spec_writer hw
      rw [hsw]
      simp only
      rw [if_neg (hi.future_ne hw hu), hsw]
  by_cases hone : 1 < u.references
  · obtain ⟨hrun, hinv⟩ := closeversion_shared hi commit hver hone (fun _ => hread.1)
    have hg : Recount (fun v => if v.serial = u.serial then { v with references := u.references - 1 } else v) :=
      Recount.references (by omega) _
    refine .inl ⟨_, .done, by rw [step, hrun]; rfl, hinv, ?_⟩
    rw [hstep, setReferences_eq, spec_recount hg hg]
    refine Prod.ext (Spec.ext ?_ ?_ rfl rfl) rfl
    · simp only [Db.spec]
      rw [filterMap_map, ← filterMap_eq_map]
      refine filterMap_congr (fun v hv => ?_)
      rw [comp_apply, comp_apply, Spec.release]
      by_cases hvu : v.serial = u.serial
      · rw [hi.version_unique hv hu hvu]
        rw [if_pos rfl, if_pos rfl, if_pos hone]
      · rw [if_neg hvu, if_neg hvu]
    · refine Option.map_congr (fun w hw => ?_)
      rw [if_neg (hi.future_ne hw hu)]
  have hur : u.references = 1 := by
    have := hread.2
    omega
  have hne : u.serial ≠ db.currentSerial := fun h => hone (hr h)
  obtain ⟨db', hrun, hinv, hsp⟩ := closeReader_spec hi hu hne hur
  refine .inl ⟨db', .done, ?_, hinv, ?_⟩
  · rw [step, closeversion, hver]
    simp only
    rw [insist_true (by simp [hur]), ok_bind, if_neg (by omega), hread.1]
    simp only [Bool.false_eq_true, if_false]
    rw [hrun]
    rfl
  · rw [hstep, hsp]

theorem steps_closeWriter (hi : Inv db) {w : Version} {commit : Bool} (hw : db.futureVersion = some w)
    (hc : commit = true → w.commitOk = true ∧ w.references = 1) : Steps ops db (.closeversion w.serial commit) := by
  have hver := version_future hw
  obtain ⟨hwr, hpos, -, -⟩ := hi.writer w hw
  have hsw := spec_writer hw
  have hstep : db.spec.step ops (.closeversion w.serial commit) =
      (db.spec.closeWriter ⟨⟨w.serial, w.references, db.view w.serial⟩, w.commitOk⟩ commit, .done) := by
    rw [Spec.step, hsw]
    simp only
    rw [if_pos trivial]
  by_cases hone : 1 < w.references
  · have hnc : commit = true → w.writer = false := by
      intro h
      have := (hc h).2
      omega
    obtain ⟨hrun, hinv⟩ := closeversion_shared hi commit hver hone hnc
    have hg : Recount (fun v => if v.serial = w.serial then { v with references := w.references - 1 } else v) :=
      Recount.references (by omega) _
    refine .inl ⟨_, .done, by rw [step, hrun]; rfl, hinv, ?_⟩
    rw [hstep, setReferences_eq, spec_recount hg hg, Spec.closeWriter, if_pos hone]
    refine Prod.ext (Spec.ext ?_ ?_ rfl rfl) rfl
    · simp only [Db.spec]
      refine map_congr_left (fun v hv => ?_)
      rw [if_neg (Ne.symm (hi.future_ne hw hv))]
    · simp only [hw, map_some, if_true]
  have hwone : w.references = 1 := by omega
  have hclose : ∀ db', (if commit then commitVersion db w else rollbackVersion db w) = .ok db' →
      step ops db (.closeversion w.serial commit) = .ok (db', .done) := by
    intro db' hrun
    rw [step, closeversion, hver]
    simp only
    rw [insist_true (by simp [hwone]), ok_bind, if_neg (by omega), hwr]
    simp only [if_true]
    rw [hrun]
    rfl
  cases commit with
  | true =>
    obtain ⟨db', hrun, hinv, hsp⟩ := commitVersion_spec hi hw (hc rfl).1
    refine .inl ⟨db', .done, hclose db' hrun, hinv, ?_⟩
    rw [hstep, hsp, Spec.closeWriter, if_neg hone, if_pos rfl, current_spec hi]
    rfl
  | false =>
    obtain ⟨db', hrun, hinv, hsp⟩ := rollbackVersion_spec hi hw
    refine .inl ⟨db', .done, hclose db' hrun, hinv, ?_⟩
    rw [hstep, hsp, Spec.closeWriter, if_neg hone, if_neg (by simp)]

theorem step_spec (hi : Inv db) {op : Op} (ha : Allowed db.spec op) : Steps ops db op := by
  cases op with
  | currentversion => exact steps_currentversion hi
  | attachversion v => exact steps_attachversion hi ha
  | newversion mem => exact steps_newversion hi ha
  | closeversion v commit =>
    obtain ⟨w, hw, hwv, hc⟩ | ⟨-, s, hs, hsv, hr⟩ := ha
    · obtain ⟨x, hx, rfl⟩ := map_eq_some_iff.1 hw
      subst hwv
      exact steps_closeWriter hi hx hc
    obtain ⟨u, hu, rfl⟩ := mem_map.1 hs
    subst hsv
    exact steps_closeReader hi hu (fun h => hr (by rw [current_spec hi, h]))
  | addrdataset mem n type ttl rdata o => exact steps_addrdataset hi ha
  | subtractrdataset mem n type ttl rdata exact => exact steps_subtractrdataset hi ha
  | deleterdataset mem n type => exact steps_deleterdataset hi ha
  | findrdataset v n type => exact steps_findrdataset hi ha
  | attachnode n => exact steps_attachnode hi n
  | detachnode n => exact steps_detachnode hi ha

end Bind9.Rbtdb
