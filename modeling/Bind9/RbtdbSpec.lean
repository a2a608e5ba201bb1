import Mathlib.Data.List.Basic
import Mathlib.Tactic
import Bind9.RbtdbInv

/-! # Snapshots

What the versions of a zone database are for: every open version is a snapshot of the whole zone
that nothing changes, and the writer works on a copy of the newest one (`Spec`).  `Spec.step` says
what the calls do to snapshots; `Allowed` is what `db.h` asks of the callers. -/

namespace Bind9.Rbtdb

open List
open Function

/-- The content of a zone. -/
abbrev View := ℕ → NodeView

/-- An open version. -/
structure Snapshot where
  serial : ℕ
  references : ℕ
  view : View

structure Writer extends Snapshot where
  commitOk : Bool

/-- The open versions, newest first, the writer, the next serial and the references to nodes that
callers hold. -/
@[ext] structure Spec where
  opened : List Snapshot
  writer : Option Writer
  next : ℕ
  held : ℕ → ℕ

namespace Spec

/-- Give one reference to version `v` back. -/
def release (v : ℕ) (s : Snapshot) : Option Snapshot :=
  if s.serial = v then if 1 < s.references then some { s with references := s.references - 1 } else none
  else some s

/-- Take one more reference to version `v`. -/
def acquire (v : ℕ) (s : Snapshot) : Snapshot :=
  if s.serial = v then { s with references := s.references + 1 } else s

/-- The serial of the newest version. -/
def current (sp : Spec) : Option ℕ := sp.opened.head?.map Snapshot.serial

def setNode (view : View) (n : ℕ) (x : NodeView) : View := update view n x

/-- A write: `f` works on the content of the node that the writer sees. -/
def write (sp : Spec) (mem : Bool) (n : ℕ) (f : NodeView → NodeView × Result) : Spec × Answer :=
  match sp.writer with
  | none => (sp, .done)
  | some w =>
    if mem = false then ({ sp with writer := some { w with commitOk := false } }, .result .nomemory)
    else ({ sp with writer := some { w with view := setNode w.view n (f (w.view n)).1 } },
      .result (f (w.view n)).2)

/-- The snapshot that version `v` shows. -/
def lookup (sp : Spec) (v : ℕ) : Option View :=
  match sp.writer with
  | some w => if w.serial = v then some w.view else (sp.opened.find? (fun s => decide (s.serial = v))).map Snapshot.view
  | none => (sp.opened.find? (fun s => decide (s.serial = v))).map Snapshot.view

def closeWriter (sp : Spec) (w : Writer) (commit : Bool) : Spec :=
  if 1 < w.references then { sp with writer := some { w with references := w.references - 1 } }
  else if commit then
    { sp with
      opened := ⟨w.serial, 1, w.view⟩ :: sp.opened.filterMap (fun s => release (sp.current.getD 0) s)
      writer := none }
  else { sp with writer := none }

/-- What a call does to the snapshots. -/
noncomputable def step (ops : RdataOps) (sp : Spec) : Op → Spec × Answer
  | .currentversion => ({ sp with opened := sp.opened.map (acquire (sp.current.getD 0)) }, .version sp.current)
  | .attachversion v =>
    ({ sp with
        opened := sp.opened.map (acquire v)
        writer := sp.writer.map (fun w => if w.serial = v then { w with references := w.references + 1 } else w) },
      .done)
  | .newversion mem =>
    if mem = false then (sp, .version none)
    else
      match sp.opened with
      | [] => (sp, .done)
      | s :: _ =>
        ({ sp with writer := some ⟨⟨sp.next, 1, s.view⟩, true⟩, next := (sp.next + 1) % 2 ^ 32 },
          .version (some sp.next))
  | .closeversion v commit =>
    match sp.writer with
    | some w =>
      if w.serial = v then (sp.closeWriter w commit, .done)
      else ({ sp with opened := sp.opened.filterMap (release v) }, .done)
    | none => ({ sp with opened := sp.opened.filterMap (release v) }, .done)
  | .addrdataset mem n type ttl rdata o =>
    if mem.header = false then (sp, .result .nomemory)
    else sp.write mem.changed n (fun x => x.add ops mem.result o type ttl (some rdata))
  | .subtractrdataset mem n type ttl rdata exact =>
    if mem.header = false then (sp, .result .nomemory)
    else sp.write mem.changed n (fun x => x.subtract ops mem.result type ttl rdata exact)
  | .deleterdataset mem n type =>
    if type.base = any then (sp, .result .notimplemented)
    else if type.base = rrsig ∧ type.covers = 0 then (sp, .result .notimplemented)
    else if mem.header = false then (sp, .result .nomemory)
    else sp.write mem.changed n (fun x => x.add ops mem.result ⟨false, false, false⟩ type 0 none)
  | .findrdataset v n type => (sp, .rdataset ((sp.lookup v).bind (fun w => (w n).findrdataset type)))
  | .attachnode n => ({ sp with held := update sp.held n (sp.held n + 1) }, .done)
  | .detachnode n => ({ sp with held := update sp.held n (sp.held n - 1) }, .done)

end Spec

/-- What `db.h` asks of the callers: a version or node argument is one the caller holds, there is
one writer, it does not commit after a failed `add_changed`, nor while others hold its version. -/
def Allowed (sp : Spec) : Op → Prop
  | .currentversion => True
  | .attachversion v => (sp.lookup v).isSome = true
  | .newversion _ => sp.writer.isNone = true
  | .closeversion v commit =>
    (∃ w, sp.writer = some w ∧ w.serial = v ∧ (commit = true → w.commitOk = true ∧ w.references = 1)) ∨
      ((∀ w, sp.writer = some w → w.serial ≠ v) ∧
        ∃ s ∈ sp.opened, s.serial = v ∧ (sp.current = some v → 1 < s.references))
  | .addrdataset _ n _ _ _ _ => sp.writer.isSome = true ∧ 0 < sp.held n
  | .subtractrdataset _ n _ _ _ _ => sp.writer.isSome = true ∧ 0 < sp.held n
  | .deleterdataset _ n _ => sp.writer.isSome = true ∧ 0 < sp.held n
  | .findrdataset v n type => (sp.lookup v).isSome = true ∧ 0 < sp.held n ∧ type.base ≠ any
  | .attachnode _ => True
  | .detachnode n => 0 < sp.held n

/-- What version `v` shows of the whole zone. -/
def Db.view (db : Db) (v : ℕ) : View := fun n => Rbtdb.view v (db.nodes n).data

/-- The snapshots that a database stands for. -/
def Db.spec (db : Db) : Spec where
  opened := db.openVersions.map (fun v => ⟨v.serial, v.references, db.view v.serial⟩)
  writer := db.futureVersion.map (fun w => ⟨⟨w.serial, w.references, db.view w.serial⟩, w.commitOk⟩)
  next := db.nextSerial
  held n := (db.nodes n).references - db.pinned n

/-- One call keeps the invariant and does what `Spec.step` says.  The one way to stop is the
`RUNTIME_CHECK` of `newversion`, when all serials are used up. -/
def Steps (ops : RdataOps) (db : Db) (op : Op) : Prop :=
  (∃ db' a, step ops db op = .ok (db', a) ∧ Inv db' ∧ db.spec.step ops op = (db'.spec, a)) ∨
    (step ops db op = .error .runtimeCheck ∧ db.nextSerial = 0 ∧ ∃ mem, op = .newversion mem)

/-! ### Lists of versions -/

section lists
variable {vs : List Version} {newer older : List Version} {v : Version}

/-- In a list with falling serials, the serial tells the place. -/
theorem ne_of_sorted (hs : (newer ++ v :: older).Pairwise (fun u v => v.serial < u.serial)) :
    (∀ u ∈ newer, u.serial ≠ v.serial) ∧ ∀ u ∈ older, u.serial ≠ v.serial := by
  obtain ⟨-, hv, hcross⟩ := pairwise_append.1 hs
  refine ⟨fun u hu => ?_, fun u hu => ?_⟩
  · have := hcross u hu v mem_cons_self
    omega
  · have := (pairwise_cons.1 hv).1 u hu
    omega

theorem findVersion_split (hs : (newer ++ v :: older).Pairwise (fun u v => v.serial < u.serial)) :
    findVersion v.serial (newer ++ v :: older) = some v := by
  rw [findVersion, find?_append, find?_eq_none.2, find?_cons_of_pos (by simp)]
  · rfl
  · intro u hu
    simpa using (ne_of_sorted hs).1 u hu

theorem map_ne (f : Version → Version) {s : ℕ} (hne : ∀ u ∈ vs, u.serial ≠ s) : modifyVersion s f vs = vs := by
  rw [modifyVersion]
  refine (map_congr_left (fun u hu => ?_)).trans (map_id vs)
  rw [if_neg (hne u hu), id]

theorem modifyVersion_split (newer : List Version) (f : Version → Version)
    (hs : (newer ++ v :: older).Pairwise (fun u v => v.serial < u.serial)) :
    modifyVersion v.serial f (newer ++ v :: older) = newer ++ f v :: older := by
  have h1 := map_ne f (ne_of_sorted hs).1
  have h2 := map_ne f (ne_of_sorted hs).2
  rw [modifyVersion] at h1 h2 ⊢
  rw [map_append, map_cons, h1, h2, if_pos rfl]

theorem filter_ne {s : ℕ} (hne : ∀ u ∈ vs, u.serial ≠ s) : unlink s vs = vs := by
  rw [unlink, filter_eq_self]
  intro u hu
  simpa using hne u hu

theorem unlink_split (newer : List Version) {s : ℕ} (hv : v.serial = s) (h1 : ∀ u ∈ newer, u.serial ≠ s) (h2 : ∀ u ∈ older, u.serial ≠ s) :
    unlink s (newer ++ v :: older) = newer ++ older := by
  have h1 := filter_ne h1
  have h2 := filter_ne h2
  rw [unlink] at h1 h2 ⊢
  rw [filter_append, filter_cons_of_neg (by simpa using hv), h1, h2]

theorem prevVersion_split {u : Version} : ∀ newer : List Version,
    (newer ++ u :: v :: older).Pairwise (fun u v => v.serial < u.serial) →
    prevVersion v.serial (newer ++ u :: v :: older) = some u
  | [], _ => by rw [nil_append, prevVersion, if_pos rfl]
  | a :: newer, hs => by
    have hs' : (newer ++ u :: v :: older).Pairwise (fun u v => v.serial < u.serial) :=
      (pairwise_cons.1 hs).2
    have ih := prevVersion_split newer hs'
    cases newer with
    | nil =>
      have hne : u.serial ≠ v.serial := by
        have := (pairwise_cons.1 hs').1 v mem_cons_self
        omega
      rw [nil_append] at ih
      rw [cons_append, nil_append, prevVersion, if_neg hne]
      exact ih
    | cons b newer =>
      have hne : b.serial ≠ v.serial := by
        have := (pairwise_cons.1 hs').1 v (by simp)
        omega
      rw [cons_append, cons_append, prevVersion, if_neg hne]
      exact ih

end lists

end Bind9.Rbtdb
