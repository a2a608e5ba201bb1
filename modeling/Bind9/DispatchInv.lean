import Bind9.DispatchEvents
import Mathlib.Logic.Relation

/-! # The invariant of dispatches

The events are in their places (`Valid`), the table holds the entries in the buckets of their hashes, and the references of a
dispatch are those of its users and of its entries.  Functions that only have to do with sockets leave all this (`Same`). -/

namespace Bind9.Dispatch

open List
open Function
open Option

set_option linter.unusedSectionVars false

variable {D E S V : Type} [DecidableEq D] [DecidableEq E] [DecidableEq S] [DecidableEq V]

def Entry.key (z : Entry D S V) : Key := ⟨z.host, z.id, z.port⟩

def Entry.core (z : Entry D S V) : Entry D S V := { z with dispsocket := none }

theorem Entry.of_core_eq {z z' : Entry D S V} (h : z'.core = z.core) : z'.disp = z.disp ∧ z'.bucket = z.bucket ∧
    z'.key = z.key ∧ z'.itemOut = z.itemOut ∧ z'.items = z.items := by
  have hdisp : z'.core.disp = z.core.disp := by rw [h]
  have hbucket : z'.core.bucket = z.core.bucket := by rw [h]
  have hkey : z'.core.key = z.core.key := by rw [h]
  have hout : z'.core.itemOut = z.core.itemOut := by rw [h]
  have hitems : z'.core.items = z.core.items := by rw [h]
  exact ⟨hdisp, hbucket, hkey, hout, hitems⟩

def Disp.core (x : Disp S V) : ℕ × ℕ × V × Bool := (x.refcount, x.requests, x.failsafeEv, x.shutdownOut)

def State.view (s : State D E S V) : View D E V :=
  ⟨fun e => (s.entry e).map (fun z => (z.disp, z.key)), fun x e => (x, e) ∈ s.sent ++ s.got,
    fun x e => ∃ z, s.entry e = some z ∧ x ∈ z.items, fun e => (s.entry e).any Entry.itemOut,
    fun d => (s.disp d).map Disp.failsafeEv, fun d => (s.disp d).any Disp.shutdownOut, s.event, s.received⟩

/-- The entries of a dispatch in the table. -/
def entriesOf (m : Manager) (s : State D E S V) (d : D) : ℕ :=
  (linear m s).countP (fun e => (s.entry e).any (fun z => z.disp == d))

structure Inv (m : Manager) (s : State D E S V) : Prop where
  valid : Valid s.view
  nodup : (s.sent ++ s.got).Nodup
  items_nodup : ∀ e z, s.entry e = some z → z.items.Nodup
  table_nodup : ∀ b, (s.table b).Nodup
  linked : ∀ b e, e ∈ s.table b → ∃ z, s.entry e = some z ∧ z.bucket = b
  bucket : ∀ e z, s.entry e = some z → e ∈ s.table z.bucket ∧ z.bucket = dnsHash m z.host z.id z.port
  refs : ∀ d x, s.disp d = some x → x.refcount = s.users d + x.requests ∧ x.requests = entriesOf m s d
  adding : ∀ d dest id b port k, s.sect d = .adding dest id b port k → b = dnsHash m dest id port
  added : ∀ d e, s.sect d = .added e → ∃ z, s.entry e = some z ∧ z.disp = d

/-! ### What only has to do with sockets -/

structure Same (s s' : State D E S V) : Prop where
  entry : ∀ e, (s'.entry e).map Entry.core = (s.entry e).map Entry.core
  disp : ∀ d, (s'.disp d).map Disp.core = (s.disp d).map Disp.core
  event : s'.event = s.event
  table : s'.table = s.table
  sent : s'.sent = s.sent
  got : s'.got = s.got
  users : s'.users = s.users
  received : s'.received = s.received
  sect : s'.sect = s.sect
  delivered : s'.delivered = s.delivered

section same

variable {s s' : State D E S V} {m : Manager} {d : D} {e : E} {k : S}

/-- Two records that agree. -/
theorem map_some {α β : Type} {o o' : Option α} {g : α → β} (h : o'.map g = o.map g) {a' : α} (ha' : o' = some a') :
    ∃ a, o = some a ∧ g a' = g a := by
  subst ha'
  cases o with
  | none => cases h
  | some a => exact ⟨a, rfl, Option.some.inj h⟩

theorem Same.refl (s : State D E S V) : Same s s := ⟨fun _ => rfl, fun _ => rfl, rfl, rfl, rfl, rfl, rfl, rfl, rfl, rfl⟩

theorem Same.trans {s'' : State D E S V} (h : Same s s') (h' : Same s' s'') : Same s s'' :=
  ⟨fun e => (h'.entry e).trans (h.entry e), fun d => (h'.disp d).trans (h.disp d), h'.event.trans h.event,
    h'.table.trans h.table, h'.sent.trans h.sent, h'.got.trans h.got, h'.users.trans h.users, h'.received.trans h.received,
    h'.sect.trans h.sect, h'.delivered.trans h.delivered⟩

theorem Same.map_entry (h : Same s s') {α : Type} (g : Entry D S V → α) (hg : ∀ z, g z.core = g z) (e : E) :
    (s'.entry e).map g = (s.entry e).map g := by
  have hcore : ∀ o : Option (Entry D S V), o.map g = (o.map Entry.core).map g := by
    intro o
    cases o with
    | none => rfl
    | some z => exact congrArg some (hg z).symm
  rw [hcore, hcore (s.entry e), h.entry e]

theorem Same.map_disp (h : Same s s') {α : Type} (g : ℕ × ℕ × V × Bool → α) (d : D) :
    (s'.disp d).map (fun x => g x.core) = (s.disp d).map (fun x => g x.core) := by
  have hcore : ∀ o : Option (Disp S V), o.map (fun x => g x.core) = (o.map Disp.core).map g := by
    intro o
    cases o <;> rfl
  rw [hcore, hcore (s.disp d), h.disp d]

theorem Same.any_entry (h : Same s s') (p : Entry D S V → Bool) (hp : ∀ z, p z.core = p z) (e : E) :
    (s'.entry e).any p = (s.entry e).any p := by
  have hmap := h.map_entry p hp e
  have hany : ∀ o : Option (Entry D S V), o.any p = (o.map p).any id := by
    intro o
    cases o <;> rfl
  rw [hany, hany (s.entry e), hmap]

theorem Same.view (h : Same s s') : s'.view = s.view := by
  unfold State.view
  have hitems : ∀ x e, (∃ z, s'.entry e = some z ∧ x ∈ z.items) = ∃ z, s.entry e = some z ∧ x ∈ z.items := by
    intro x e
    apply propext
    constructor
    · rintro ⟨z', hz', hx⟩
      obtain ⟨z, hz, hcore⟩ := map_some (h.entry e) hz'
      exact ⟨z, hz, (Entry.of_core_eq hcore).2.2.2.2 ▸ hx⟩
    · rintro ⟨z, hz, hx⟩
      obtain ⟨z', hz', hcore⟩ := map_some (h.entry e).symm hz
      exact ⟨z', hz', (Entry.of_core_eq hcore).2.2.2.2 ▸ hx⟩
  have hshut : ∀ d, (s'.disp d).any Disp.shutdownOut = (s.disp d).any Disp.shutdownOut := by
    intro d
    have hmap := h.map_disp (fun c => c.2.2.2) d
    have hany : ∀ o : Option (Disp S V), o.any Disp.shutdownOut = (o.map (fun x => x.core.2.2.2)).any id := by
      intro o
      cases o <;> rfl
    rw [hany, hany (s.disp d), hmap]
  simp only [h.map_entry (fun z => (z.disp, z.key)) (fun _ => rfl), h.any_entry Entry.itemOut (fun _ => rfl), hitems, hshut,
    h.event, h.sent, h.got, h.received]
  congr 1
  funext d
  exact h.map_disp (fun c => c.2.2.1) d

/-- What the table knows of an entry. -/
def Entry.link (z : Entry D S V) : D × ℕ × Key := (z.disp, z.bucket, z.key)

def Disp.refs (x : Disp S V) : ℕ × ℕ := (x.refcount, x.requests)

theorem entriesOf_congr (hentry : ∀ e, (s'.entry e).map Entry.link = (s.entry e).map Entry.link) (htable : s'.table = s.table)
    (d : D) : entriesOf m s' d = entriesOf m s d := by
  unfold entriesOf linear
  rw [htable]
  apply countP_congr
  intro e _
  have hany : ∀ o : Option (Entry D S V), o.any (fun z => z.disp == d) = (o.map Entry.link).any (fun l => l.1 == d) := by
    intro o
    cases o <;> rfl
  rw [hany, hany (s.entry e), hentry e]

theorem Inv.events (hinv : Inv m s) (hvalid : Valid s'.view) (hnodup : (s'.sent ++ s'.got).Nodup)
    (hitems : ∀ e z, s'.entry e = some z → z.items.Nodup)
    (hentry : ∀ e, (s'.entry e).map Entry.link = (s.entry e).map Entry.link) (htable : s'.table = s.table)
    (hdisp : ∀ d, (s'.disp d).map Disp.refs = (s.disp d).map Disp.refs) (husers : s'.users = s.users)
    (hsect : s'.sect = s.sect) : Inv m s' := by
  refine ⟨hvalid, hnodup, hitems, by rw [htable]; exact hinv.table_nodup, fun b e he => ?_, fun e z' hz' => ?_,
    fun d x' hx' => ?_, by rw [hsect]; exact hinv.adding, fun d e hd => ?_⟩
  · rw [htable] at he
    obtain ⟨z, hz, hb⟩ := hinv.linked b e he
    obtain ⟨z', hz', hlink⟩ := map_some (hentry e).symm hz
    exact ⟨z', hz', (congrArg (fun l : D × ℕ × Key => l.2.1) hlink).symm.trans hb⟩
  · obtain ⟨z, hz, hlink⟩ := map_some (hentry e) hz'
    have hb : z'.bucket = z.bucket := congrArg (fun l : D × ℕ × Key => l.2.1) hlink
    have hkey : z'.key = z.key := congrArg (fun l : D × ℕ × Key => l.2.2) hlink
    have hhost : z'.host = z.host := congrArg Key.host hkey
    have hid : z'.id = z.id := congrArg Key.id hkey
    have hport : z'.port = z.port := congrArg Key.port hkey
    rw [htable, hb, hhost, hid, hport]
    exact hinv.bucket e z hz
  · obtain ⟨x, hx, hrefs⟩ := map_some (hdisp d) hx'
    have hrefcount : x'.refcount = x.refcount := congrArg Prod.fst hrefs
    have hrequests : x'.requests = x.requests := congrArg Prod.snd hrefs
    rw [hrefcount, hrequests, husers, entriesOf_congr hentry htable]
    exact hinv.refs d x hx
  · rw [hsect] at hd
    obtain ⟨z, hz, hdisp⟩ := hinv.added d e hd
    obtain ⟨z', hz', hlink⟩ := map_some (hentry e).symm hz
    exact ⟨z', hz', (congrArg Prod.fst hlink).symm.trans hdisp⟩

theorem Inv.same (hinv : Inv m s) (h : Same s s') : Inv m s' := by
  refine hinv.events (by rw [h.view]; exact hinv.valid) (by rw [h.sent, h.got]; exact hinv.nodup) (fun e z' hz' => ?_)
    (fun e => h.map_entry Entry.link (fun _ => rfl) e) h.table (fun d => h.map_disp (fun c => (c.1, c.2.1)) d) h.users h.sect
  obtain ⟨z, hz, hcore⟩ := map_some (h.entry e) hz'
  rw [(Entry.of_core_eq hcore).2.2.2.2]
  exact hinv.items_nodup e z hz

theorem deref_ok {α : Type} {o : Option α} {a : α} (h : deref o = .ok a) : o = some a := by
  cases o with
  | none => cases h
  | some b =>
    cases h
    rfl

theorem same_setDisp {x x' : Disp S V} (hx : s.disp d = some x) (hcore : x'.core = x.core) : Same s (s.setDisp d x') := by
  refine ⟨fun _ => rfl, fun d' => ?_, rfl, rfl, rfl, rfl, rfl, rfl, rfl, rfl⟩
  show (update s.disp d (some x') d').map Disp.core = (s.disp d').map Disp.core
  by_cases hd : d' = d
  · subst hd
    rw [update_self, hx]
    exact congrArg some hcore
  · rw [update_of_ne hd]

theorem same_setEntry {z z' : Entry D S V} (hz : s.entry e = some z) (hcore : z'.core = z.core) : Same s (s.setEntry e z') := by
  refine ⟨fun e' => ?_, fun _ => rfl, rfl, rfl, rfl, rfl, rfl, rfl, rfl, rfl⟩
  show (update s.entry e (some z') e').map Entry.core = (s.entry e').map Entry.core
  by_cases he : e' = e
  · subst he
    rw [update_self, hz]
    exact congrArg some hcore
  · rw [update_of_ne he]

theorem same_setSocket (s : State D E S V) (k : S) (y : Option (DispSocket D E)) : Same s (s.setSocket k y) :=
  ⟨fun _ => rfl, fun _ => rfl, rfl, rfl, rfl, rfl, rfl, rfl, rfl, rfl⟩

theorem same_destroyDispsocket (h : destroyDispsocket s d k = .ok s') : Same s s' := by
  obtain ⟨x, hx, h⟩ := bind_eq_ok h
  cases h
  refine Same.trans ?_ (same_setSocket _ k none)
  exact same_setDisp (deref_ok hx) rfl

theorem same_releaseEntry (h : releaseEntry s k = .ok s') : Same s s' := by
  obtain ⟨y, hy, h⟩ := bind_eq_ok h
  split at h
  · obtain ⟨z, hz, h⟩ := bind_eq_ok h
    obtain ⟨_, -, h⟩ := bind_eq_ok h
    cases h
    exact same_setEntry (deref_ok hz) rfl
  · cases h
    exact Same.refl s

theorem same_deactivateDispsocket {closed : Bool} (h : deactivateDispsocket s d k closed = .ok s') : Same s s' := by
  obtain ⟨s1, h1, h⟩ := bind_eq_ok h
  obtain ⟨x, hx, h⟩ := bind_eq_ok h
  have hrelease := same_releaseEntry h1
  simp only at h
  split at h
  · cases h
    exact hrelease.trans (same_setDisp (deref_ok hx) rfl)
  · refine hrelease.trans (Same.trans ?_ (same_destroyDispsocket h))
    exact same_setDisp (deref_ok hx) rfl

theorem same_getDispsocket {dest : SockAddr} {choice : Choice S} {found : Option (S × ℕ)}
    (h : getDispsocket s d dest choice = .ok (s', found)) : Same s s' := by
  obtain ⟨x, hx, h⟩ := bind_eq_ok h
  split at h
  · cases h
    exact Same.refl s
  · cases h
    exact Same.refl s
  · obtain ⟨s1, h1, h⟩ := bind_eq_ok h
    cases h
    refine Same.trans ?_ (same_destroyDispsocket h1)
    exact same_setDisp (deref_ok hx) rfl
  · cases h
    refine Same.trans ?_ (same_setSocket _ _ _)
    exact same_setDisp (deref_ok hx) rfl
  · obtain ⟨y, -, h⟩ := bind_eq_ok h
    cases h
    refine Same.trans ?_ (same_setSocket _ _ _)
    exact same_setDisp (deref_ok hx) rfl

theorem same_recvBegin {dispsock k' : Option S} {r : Received} {closed : Bool}
    (h : recvBegin s d dispsock r closed = .ok (s', k')) : Same s s' := by
  obtain ⟨x, hx, h⟩ := bind_eq_ok h
  cases dispsock with
  | none =>
    simp only at h
    split at h
    · cases h
      exact Same.refl s
    obtain ⟨_, -, h⟩ := bind_eq_ok h
    cases h
    exact same_setDisp (deref_ok hx) rfl
  | some k =>
    obtain ⟨y, -, h⟩ := bind_eq_ok h
    split at h
    · obtain ⟨s1, h1, h⟩ := bind_eq_ok h
      cases h
      exact (same_setSocket s k _).trans (same_deactivateDispsocket h1)
    · cases h
      exact same_setSocket s k _

theorem same_dropSocket {k : Option S} (h : dropSocket s k = .ok s') : Same s s' := by
  unfold dropSocket at h
  split at h
  · cases h
    exact Same.refl s
  obtain ⟨y, -, h⟩ := bind_eq_ok h
  cases h
  exact same_setSocket s _ _

def Disp.startCancels (x : Disp S V) (dispsock : Option S) (start : Start) : Bool :=
  !x.shuttingDown && !x.nolisten && !x.recvPending && !x.exclusive && dispsock.isNone && start == .refused

def Disp.startFails (x : Disp S V) (dispsock : Option S) (start : Start) : Bool :=
  !x.shuttingDown && !x.nolisten && !(x.recvPending && dispsock.isNone) &&
    (start == .noMemory || dispsock.isSome && start == .refused)

theorem startrecv_spec {x : Disp S V} {dispsock : Option S} {start : Start} {ok : Bool} (hx : s.disp d = some x)
    (h : startrecv m s d dispsock start = .ok (s', ok)) :
    ok = !x.startFails dispsock start ∧
    (x.startCancels dispsock start = false ∧ Same s s' ∨
      x.startCancels dispsock start = true ∧ doCancel m (s.setDisp d { x with shuttingDown := true }) d = .ok s') := by
  unfold startrecv at h
  rw [hx] at h
  simp only [deref, ok_then] at h
  unfold Disp.startFails Disp.startCancels
  cases hshut : x.shuttingDown with
  | true =>
    rw [hshut] at h
    cases h
    exact ⟨rfl, Or.inl ⟨rfl, Same.refl s⟩⟩
  | false =>
    cases hlisten : x.nolisten with
    | true =>
      rw [hshut, hlisten] at h
      cases h
      exact ⟨rfl, Or.inl ⟨rfl, Same.refl s⟩⟩
    | false =>
      rw [hshut, hlisten] at h
      cases dispsock with
      | none =>
        cases hpending : x.recvPending with
        | true =>
          rw [hpending] at h
          cases h
          exact ⟨rfl, Or.inl ⟨rfl, Same.refl s⟩⟩
        | false =>
          rw [hpending] at h
          cases hex : x.exclusive with
          | true =>
            rw [hex] at h
            cases start with
            | started | noMemory | refused =>
              cases h
              exact ⟨rfl, Or.inl ⟨rfl, Same.refl s⟩⟩
          | false =>
            rw [hex] at h
            cases start with
            | started =>
              cases h
              exact ⟨rfl, Or.inl ⟨rfl, same_setDisp hx rfl⟩⟩
            | noMemory =>
              cases h
              exact ⟨rfl, Or.inl ⟨rfl, Same.refl s⟩⟩
            | refused =>
              obtain ⟨s1, h1, h⟩ := bind_eq_ok h
              cases h
              exact ⟨rfl, Or.inr ⟨rfl, h1⟩⟩
      | some k =>
        simp only [isNone_some, Bool.and_false, Bool.or_false] at h
        cases start with
        | started =>
          obtain ⟨y, -, h⟩ := bind_eq_ok h
          cases h
          exact ⟨by simp, Or.inl ⟨by simp, same_setSocket s _ _⟩⟩
        | noMemory | refused =>
          cases h
          exact ⟨by simp, Or.inl ⟨by simp, Same.refl s⟩⟩

end same

/-! ### Views -/

section view

variable (s : State D E S V)

theorem view_setEvent (x : V) (c : Option Content) :
    (s.setEvent x c).view = { s.view with event := update s.view.event x c } := rfl

theorem view_setDisp (d : D) (x : Disp S V) : (s.setDisp d x).view = { s.view with
    failsafe := update s.view.failsafe d (some x.failsafeEv)
    shutdownOut := update s.view.shutdownOut d x.shutdownOut } := by
  unfold State.view State.setDisp
  congr 1
  · funext d'
    by_cases hd : d' = d
    · subst hd
      simp only [update_self]
      rfl
    · simp only [update_of_ne hd]
  · funext d'
    by_cases hd : d' = d
    · subst hd
      simp only [update_self]
      rfl
    · simp only [update_of_ne hd]

theorem view_setEntry (e : E) (z : Entry D S V) : (s.setEntry e z).view = { s.view with
    entry := update s.view.entry e (some (z.disp, z.key))
    item := fun x e' => if e' = e then x ∈ z.items else s.view.item x e'
    itemOut := update s.view.itemOut e z.itemOut } := by
  unfold State.view State.setEntry
  congr 1
  · funext e'
    by_cases he : e' = e
    · subst he
      simp only [update_self]
      rfl
    · simp only [update_of_ne he]
  · funext x e'
    by_cases he : e' = e
    · subst he
      simp only [update_self, if_pos, Option.some.injEq, exists_eq_left']
    · simp only [update_of_ne he, if_neg he]
  · funext e'
    by_cases he : e' = e
    · subst he
      simp only [update_self]
      rfl
    · simp only [update_of_ne he]

variable {s}

theorem view_entry {e : E} {z : Entry D S V} (h : s.entry e = some z) : s.view.entry e = some (z.disp, z.key) := by
  unfold State.view
  simp only [h]
  rfl

theorem view_itemOut {e : E} {z : Entry D S V} (h : s.entry e = some z) : s.view.itemOut e = z.itemOut := by
  unfold State.view
  simp only [h]
  rfl

theorem view_item {x : V} {e : E} {z : Entry D S V} (h : s.entry e = some z) : s.view.item x e ↔ x ∈ z.items := by
  unfold State.view
  simp only [h, Option.some.injEq, exists_eq_left']

theorem view_failsafe {d : D} {x : Disp S V} (h : s.disp d = some x) : s.view.failsafe d = some x.failsafeEv := by
  unfold State.view
  simp only [h]
  rfl

theorem view_shutdownOut {d : D} {x : Disp S V} (h : s.disp d = some x) : s.view.shutdownOut d = x.shutdownOut := by
  unfold State.view
  simp only [h]
  rfl

end view

/-! ### Events -/

section events

variable {m : Manager} {s s' : State D E S V} {d : D} {e : E} {x : V} {z : Entry D S V}

theorem link_setEntry {z' : Entry D S V} (hz : s.entry e = some z) (hlink : z'.link = z.link) (e' : E) :
    ((s.setEntry e z').entry e').map Entry.link = (s.entry e').map Entry.link := by
  show (update s.entry e (some z') e').map Entry.link = _
  by_cases he : e' = e
  · subst he
    rw [update_self, hz]
    exact congrArg some hlink
  · rw [update_of_ne he]

theorem items_setEntry {z' : Entry D S V} (h : ∀ e z, s.entry e = some z → z.items.Nodup) (hz' : z'.items.Nodup) (e' : E)
    (z1 : Entry D S V) (hz1 : (s.setEntry e z').entry e' = some z1) : z1.items.Nodup := by
  have hz1 : update s.entry e (some z') e' = some z1 := hz1
  by_cases he : e' = e
  · subst he
    rw [update_self] at hz1
    rw [← Option.some.inj hz1]
    exact hz'
  · rw [update_of_ne he] at hz1
    exact h e' z1 hz1

theorem Inv.not_out (hinv : Inv m s) (hx : s.event x = none) (e : E) : (x, e) ∉ s.sent ++ s.got :=
  (hinv.valid.fresh hx).2.1 e

theorem nodup_send (h : (s.sent ++ s.got).Nodup) (hx : (x, e) ∉ s.sent ++ s.got) : (s.sent ++ [(x, e)] ++ s.got).Nodup := by
  have hperm : (s.sent ++ [(x, e)] ++ s.got).Perm ((x, e) :: (s.sent ++ s.got)) := by
    rw [append_assoc]
    exact perm_middle
  exact hperm.nodup_iff.2 (nodup_cons.2 ⟨hx, h⟩)

theorem out_send (x' : V) (e' : E) :
    ((x', e') ∈ s.sent ++ [(x, e)] ++ s.got) = ((x', e') ∈ s.sent ++ s.got ∨ x' = x ∧ e' = e) := by
  apply propext
  simp only [mem_append, mem_singleton, Prod.mk.injEq]
  constructor
  · rintro ((h | h) | h)
    · exact .inl (.inl h)
    · exact .inr h
    · exact .inl (.inr h)
  · rintro ((h | h) | h)
    · exact .inl (.inl h)
    · exact .inr h
    · exact .inl (.inr h)

theorem item_same {z' : Entry D S V} (hz : s.entry e = some z) (hitems : z'.items = z.items) (x' : V) (e' : E) :
    s.view.item x' e' = if e' = e then x' ∈ z'.items else s.view.item x' e' := by
  split
  next he =>
    subst he
    rw [hitems]
    exact propext (view_item hz)
  · rfl

theorem view_send (s : State D E S V) (x : V) (e : E) : ({ s with sent := s.sent ++ [(x, e)] } : State D E S V).view =
    { s.view with out := fun x' e' => s.view.out x' e' ∨ x' = x ∧ e' = e } := by
  unfold State.view
  congr 1
  funext x' e'
  exact out_send x' e'

/-- A new event is sent to an entry, or queued there. -/
theorem Inv.deliver (hinv : Inv m s) {c : Content} (hx : s.event x = none) (hz : s.entry e = some z)
    (hc : s.view.mayGet z.key c) (h : deliver s e x c = .ok s') : Inv m s' ∧ s'.sect = s.sect ∧ s'.disp = s.disp := by
  have hentry := view_entry hz
  unfold Dispatch.deliver at h
  rw [hz] at h
  simp only [deref, ok_then] at h
  split at h
  next hout =>
    cases h
    refine ⟨hinv.events ?_ hinv.nodup (items_setEntry hinv.items_nodup ?_) (link_setEntry hz rfl) rfl (fun _ => rfl) rfl rfl, rfl, rfl⟩
    · have hmove := hinv.valid.move (Move.queue x e z.disp z.key c hx hentry ((view_itemOut hz).trans hout) hc)
      refine Eq.mp (congrArg Valid ?_) hmove
      rw [view_setEntry, view_setEvent]
      congr 1
      · exact (update_eq_self_iff.2 hentry.symm).symm
      · funext x' e'
        apply propext
        by_cases he : e' = e
        · subst he
          rw [if_pos rfl, view_item hz, mem_append, mem_singleton]
          exact ⟨fun hx' => hx'.imp id And.left, fun hx' => hx'.imp id (fun heq => ⟨heq, rfl⟩)⟩
        · rw [if_neg he]
          exact ⟨fun hx' => hx'.elim id (fun heq => absurd heq.2 he), Or.inl⟩
      · exact (update_eq_self_iff.2 ((view_itemOut hz).trans rfl).symm).symm
    · have hnot : x ∉ z.items := fun hmem => (hinv.valid.fresh hx).2.2 e ((view_item hz).2 hmem)
      exact (hinv.items_nodup e z hz).append (nodup_singleton x) (disjoint_singleton.2 hnot)
  next hout =>
    rw [Bool.not_eq_true] at hout
    cases h
    refine ⟨hinv.events ?_ (nodup_send hinv.nodup (hinv.not_out hx e))
      (items_setEntry hinv.items_nodup (hinv.items_nodup e z hz)) (link_setEntry hz rfl) rfl
      (fun _ => rfl) rfl rfl, rfl, rfl⟩
    have hmove := hinv.valid.move (Move.send x e z.disp z.key c hx hentry ((view_itemOut hz).trans hout) hc)
    refine Eq.mp (congrArg Valid ?_) hmove
    rw [view_send, view_setEntry, view_setEvent]
    congr 1
    · exact (update_eq_self_iff.2 hentry.symm).symm
    · funext x' e'
      exact item_same hz rfl x' e'

theorem firstFree_some (h : firstFree m s = some e) : ∃ z, s.entry e = some z ∧ z.itemOut = false := by
  have hfree := find?_some h
  cases hz : s.entry e with
  | none =>
    rw [hz] at hfree
    cases hfree
  | some z =>
    rw [hz] at hfree
    exact ⟨z, rfl, by simpa using hfree⟩

theorem refs_setDisp {y y' : Disp S V} (hy : s.disp d = some y) (hrefs : y'.refs = y.refs) (d' : D) :
    ((s.setDisp d y').disp d').map Disp.refs = (s.disp d').map Disp.refs := by
  show (update s.disp d (some y') d').map Disp.refs = _
  by_cases hd : d' = d
  · subst hd
    rw [update_self, hy]
    exact congrArg some hrefs
  · rw [update_of_ne hd]

/-- The failsafe event goes to an entry of the dispatch, when there is somebody to send it to. -/
def cancelOk (m : Manager) (s : State D E S V) (d : D) : Bool :=
  (s.disp d).all (fun y => y.shutdownOut || (firstFree m s).all (fun e => (s.entry e).all (fun z => z.disp == d)))

theorem cancelOk_disp {y : Disp S V} (h : cancelOk m s d = true) (hy : s.disp d = some y) (hshut : y.shutdownOut = false)
    (hfree : firstFree m s = some e) (hz : s.entry e = some z) : z.disp = d := by
  unfold cancelOk at h
  rw [hy, hfree] at h
  simp only [all_some, hshut, Bool.false_or, hz, beq_iff_eq] at h
  exact h

theorem Inv.doCancel (hinv : Inv m s) (hok : cancelOk m s d = true) (h : doCancel m s d = .ok s') : Inv m s' ∧ s'.sect = s.sect := by
  obtain ⟨y, hy, h⟩ := bind_eq_ok h
  have hd := deref_ok hy
  split at h
  · cases h
    exact ⟨hinv, rfl⟩
  next hshut =>
    rw [Bool.not_eq_true] at hshut
    split at h
    · cases h
      exact ⟨hinv, rfl⟩
    next e hfree =>
      obtain ⟨z, hz, h⟩ := bind_eq_ok h
      have he := deref_ok hz
      obtain ⟨z', hz', hout⟩ := firstFree_some hfree
      have hzz : z' = z := Option.some.inj (hz'.symm.trans he)
      rw [hzz] at hout
      have hdisp : z.disp = d := cancelOk_disp hok hd hshut hfree he
      cases h
      have hentry : s.view.entry e = some (d, z.key) := hdisp ▸ view_entry he
      have hfail := view_failsafe hd
      have hidle : (y.failsafeEv, e) ∉ s.sent ++ s.got := by
        intro hmem
        have htrue := (hinv.valid.item_out e).2 ⟨y.failsafeEv, hmem⟩
        rw [view_itemOut he, hout] at htrue
        cases htrue
      refine ⟨hinv.events ?_ (nodup_send hinv.nodup hidle) (items_setEntry hinv.items_nodup (hinv.items_nodup e z he))
        (link_setEntry (s := s) he rfl) rfl (refs_setDisp (s := s) hd rfl) rfl rfl, rfl⟩
      have hmove := hinv.valid.move (Move.cancel y.failsafeEv e d z.key hfail hentry ((view_itemOut he).trans hout)
        ((view_shutdownOut hd).trans hshut))
      refine Eq.mp (congrArg Valid ?_) hmove
      rw [view_send, view_setEntry, view_setDisp, view_setEvent]
      congr 1
      · exact (update_eq_self_iff.2 (view_entry he).symm).symm
      · funext x' e'
        exact item_same he rfl x' e'
      · exact (update_eq_self_iff.2 hfail.symm).symm

/-- A task gives an event to its caller. -/
theorem Inv.run (hinv : Inv m s) (h : (x, e) ∈ s.sent) :
    Inv m { s with sent := s.sent.erase (x, e), got := s.got ++ [(x, e)] } := by
  have hperm : (s.sent.erase (x, e) ++ (s.got ++ [(x, e)])).Perm (s.sent ++ s.got) := by
    have hfront : (s.sent.erase (x, e) ++ (s.got ++ [(x, e)])).Perm ((x, e) :: (s.sent.erase (x, e) ++ s.got)) := by
      rw [← append_assoc]
      exact perm_append_singleton (x, e) _
    exact hfront.trans ((perm_cons_erase h).symm.append_right s.got)
  refine hinv.events ?_ (hperm.nodup_iff.2 hinv.nodup) hinv.items_nodup (fun _ => rfl) rfl (fun _ => rfl) rfl rfl
  refine Eq.mp (congrArg Valid ?_) hinv.valid
  unfold State.view
  congr 1
  funext x' e'
  exact propext hperm.symm.mem_iff

/-- A packet is received. -/
theorem Inv.tick (hinv : Inv m s) : Inv m { s with received := s.received + 1 } :=
  hinv.events (hinv.valid.move Move.tick) hinv.nodup hinv.items_nodup (fun _ => rfl) rfl (fun _ => rfl) rfl rfl

end events

/-! ### The table -/

section table

variable {m : Manager} {s s' : State D E S V} {d : D} {e : E} {z : Entry D S V}

/-- One bucket changes. -/
theorem flatMap_update_perm (t : ℕ → List E) {n b : ℕ} (hb : b < n) :
    ∃ rest, ∀ l, ((range n).flatMap (update t b l)).Perm (l ++ rest) := by
  refine ⟨((range n).erase b).flatMap t, fun l => ?_⟩
  have hperm : (range n).Perm (b :: (range n).erase b) := perm_cons_erase (mem_range.2 hb)
  refine (hperm.flatMap_right _).trans (Perm.of_eq ?_)
  rw [flatMap_cons, update_self]
  congr 1
  apply flatMap_congr
  intro b' hb'
  have hne : b' ≠ b := fun heq => (nodup_range.not_mem_erase) (heq ▸ hb')
  rw [update_of_ne hne]

theorem Inv.mem_linear (hinv : Inv m s) : e ∈ linear m s ↔ (s.entry e).isSome = true := by
  unfold linear
  rw [mem_flatMap]
  constructor
  · rintro ⟨b, -, he⟩
    obtain ⟨z, hz, -⟩ := hinv.linked b e he
    rw [hz]
    rfl
  · intro he
    obtain ⟨z, hz⟩ := isSome_iff_exists.1 he
    obtain ⟨hmem, hb⟩ := hinv.bucket e z hz
    refine ⟨z.bucket, mem_range.2 ?_, hmem⟩
    rw [hb]
    exact Nat.mod_lt _ m.nbuckets_pos

theorem entriesOf_cons (hperm : (linear m s).Perm (e :: linear m s')) (he : e ∉ linear m s') (hz : s.entry e = some z)
    (hentry : ∀ e', e' ≠ e → (s.entry e').map Entry.link = (s'.entry e').map Entry.link) (d : D) :
    entriesOf m s d = entriesOf m s' d + if z.disp = d then 1 else 0 := by
  unfold entriesOf
  rw [hperm.countP_eq, countP_cons, hz]
  have hrest : countP (fun e' => (s.entry e').any (fun z => z.disp == d)) (linear m s') =
      countP (fun e' => (s'.entry e').any (fun z => z.disp == d)) (linear m s') := by
    apply countP_congr
    intro e' he'
    have hne : e' ≠ e := fun heq => he (heq ▸ he')
    have hany : ∀ o : Option (Entry D S V), o.any (fun z => z.disp == d) = (o.map Entry.link).any (fun l => l.1 == d) := by
      intro o
      cases o <;> rfl
    rw [hany, hany (s'.entry e'), hentry e' hne]
  rw [hrest]
  simp only [any_some, beq_iff_eq]

/-- An entry is put into the table. -/
theorem Inv.insert (hinv : Inv m s) {x : Disp S V} (hd : s.disp d = some x) (he : s.entry e = none)
    (hsect : ∃ k, s.sect d = .adding z.host z.id z.bucket z.port k) (hdisp : z.disp = d) (hout : z.itemOut = false)
    (hitems : z.items = []) (hfree : entrySearch s z.host z.id z.port z.bucket = none)
    (hentry : s'.entry = update s.entry e (some z))
    (hdisps : s'.disp = update s.disp d (some { x with refcount := x.refcount + 1, requests := x.requests + 1 }))
    (htable : s'.table = update s.table z.bucket (s.table z.bucket ++ [e])) (hevent : s'.event = s.event)
    (hsent : s'.sent = s.sent) (hgot : s'.got = s.got) (husers : s'.users = s.users) (hreceived : s'.received = s.received)
    (hsects : s'.sect = update s.sect d (.added e)) : Inv m s' := by
  obtain ⟨k, hsect⟩ := hsect
  have hb := hinv.adding d _ _ _ _ _ hsect
  have hlt : z.bucket < m.nbuckets := by
    rw [hb]
    exact Nat.mod_lt _ m.nbuckets_pos
  have hnot : ∀ b, e ∉ s.table b := by
    intro b hmem
    obtain ⟨z', hz', -⟩ := hinv.linked b e hmem
    cases he.symm.trans hz'
  have hself : s'.entry e = some z := by
    rw [hentry]
    exact update_self ..
  have hother : ∀ {e'}, e' ≠ e → s'.entry e' = s.entry e' := by
    intro e' hne
    rw [hentry]
    exact update_of_ne hne ..
  -- the new key is in no other entry, for this would be in the same bucket
  have hkey : ∀ e' d', s.view.entry e' ≠ some (d', z.key) := by
    intro e' d' he'
    have hmap : (s.entry e').map (fun z => (z.disp, z.key)) = some (d', z.key) := he'
    obtain ⟨z', hz', heq⟩ := map_eq_some_iff.1 hmap
    have hkk : z'.key = z.key := congrArg Prod.snd heq
    have hhost : z'.host = z.host := congrArg Key.host hkk
    have hid : z'.id = z.id := congrArg Key.id hkk
    have hport : z'.port = z.port := congrArg Key.port hkk
    obtain ⟨hmem, hb'⟩ := hinv.bucket e' z' hz'
    rw [hhost, hid, hport, ← hb] at hb'
    rw [hb'] at hmem
    have hno := find?_eq_none.1 hfree e' hmem
    rw [hz'] at hno
    simp [hhost, hid, hport] at hno
  have hlinear : (linear m s').Perm (e :: linear m s) := by
    obtain ⟨rest, hrest⟩ := flatMap_update_perm s.table hlt
    have hold : (linear m s).Perm (s.table z.bucket ++ rest) := by
      have hl := hrest (s.table z.bucket)
      rw [update_eq_self] at hl
      exact hl
    have hnew : (linear m s').Perm (s.table z.bucket ++ [e] ++ rest) := by
      unfold linear
      rw [htable]
      exact hrest _
    refine hnew.trans ?_
    rw [append_assoc]
    exact perm_middle.trans (hold.symm.cons e)
  have hentries := entriesOf_cons (s := s') hlinear
    (fun hmem => by
      have hsome := hinv.mem_linear.1 hmem
      rw [he] at hsome
      cases hsome) hself (fun e' hne => by rw [hother hne])
  refine ⟨?_, by rw [hsent, hgot]; exact hinv.nodup, fun e' z' hz' => ?_, fun b => ?_, fun b e' he' => ?_, fun e' z' hz' => ?_,
    fun d' x' hx' => ?_, fun d' dest id b port k' hd' => ?_, fun d' e' hd' => ?_⟩
  · have hmove := hinv.valid.move (Move.insert e d z.key (by unfold State.view; simp only [he]; rfl)
      ⟨x.failsafeEv, view_failsafe hd⟩ hkey)
    refine Eq.mp (congrArg Valid ?_) hmove
    have hview : s'.view = ((s.setDisp d { x with refcount := x.refcount + 1, requests := x.requests + 1 }).setEntry e z).view := by
      unfold State.view State.setDisp State.setEntry
      rw [hentry, hdisps, hevent, hsent, hgot, hreceived]
    rw [hview, view_setEntry, view_setDisp]
    have hnothing := hinv.valid.nothing (e := e) (by unfold State.view; simp only [he]; rfl)
    congr 1
    · rw [hdisp]
    · funext x' e'
      apply propext
      split
      next hee =>
        subst hee
        rw [hitems]
        exact ⟨fun hx' => absurd hx' (hnothing.2 x'), fun hx' => absurd hx' not_mem_nil⟩
      · exact Iff.rfl
    · refine (update_eq_self_iff.2 ?_).symm
      unfold State.view
      simp only [he, hout]
      rfl
    · exact (update_eq_self_iff.2 (view_failsafe hd).symm).symm
    · exact (update_eq_self_iff.2 (view_shutdownOut hd).symm).symm
  · by_cases hee : e' = e
    · subst hee
      rw [← Option.some.inj (hself.symm.trans hz'), hitems]
      exact nodup_nil
    · rw [hother hee] at hz'
      exact hinv.items_nodup e' z' hz'
  · rw [htable]
    by_cases hbb : b = z.bucket
    · subst hbb
      rw [update_self]
      exact (hinv.table_nodup _).append (nodup_singleton e) (disjoint_singleton.2 (hnot _))
    · rw [update_of_ne hbb]
      exact hinv.table_nodup b
  · rw [htable] at he'
    by_cases hbb : b = z.bucket
    · subst hbb
      rw [update_self] at he'
      obtain he' | he' := mem_append.1 he'
      · obtain ⟨z', hz', hb'⟩ := hinv.linked _ e' he'
        have hne : e' ≠ e := fun heq => hnot _ (heq ▸ he')
        exact ⟨z', (hother hne).trans hz', hb'⟩
      · rw [mem_singleton.1 he']
        exact ⟨z, hself, rfl⟩
    rw [update_of_ne hbb] at he'
    obtain ⟨z', hz', hb'⟩ := hinv.linked b e' he'
    have hne : e' ≠ e := fun heq => hnot _ (heq ▸ he')
    exact ⟨z', (hother hne).trans hz', hb'⟩
  · rw [htable]
    by_cases hee : e' = e
    · subst hee
      rw [← Option.some.inj (hself.symm.trans hz'), update_self]
      exact ⟨mem_append_right _ (mem_singleton_self e'), hb⟩
    rw [hother hee] at hz'
    obtain ⟨hmem, hb'⟩ := hinv.bucket e' z' hz'
    refine ⟨?_, hb'⟩
    by_cases hbb : z'.bucket = z.bucket
    · rw [hbb, update_self]
      exact mem_append_left _ (hbb ▸ hmem)
    · rw [update_of_ne hbb]
      exact hmem
  · rw [husers, hentries d', hdisp]
    by_cases hdd : d' = d
    · subst hdd
      rw [hdisps, update_self] at hx'
      obtain ⟨hrefcount, hrequests⟩ := hinv.refs d' x hd
      rw [← Option.some.inj hx', if_pos rfl]
      exact ⟨by simp only; omega, by simp only; omega⟩
    rw [hdisps, update_of_ne hdd] at hx'
    rw [if_neg (fun heq => hdd heq.symm)]
    exact hinv.refs d' x' hx'
  · rw [hsects] at hd'
    by_cases hdd : d' = d
    · subst hdd
      rw [update_self] at hd'
      cases hd'
    · rw [update_of_ne hdd] at hd'
      exact hinv.adding d' dest id b port k' hd'
  · rw [hsects] at hd'
    by_cases hdd : d' = d
    · subst hdd
      rw [update_self] at hd'
      cases hd'
      exact ⟨z, hself, hdisp⟩
    rw [update_of_ne hdd] at hd'
    obtain ⟨z', hz', hdz⟩ := hinv.added d' e' hd'
    have hne : e' ≠ e := by
      rintro rfl
      cases he.symm.trans hz'
    exact ⟨z', (hother hne).trans hz', hdz⟩

/-- An entry is taken from the table. -/
theorem Inv.remove (hinv : Inv m s) {x x' : Disp S V} {p : Section E S} (hz : s.entry e = some z)
    (hd : s.disp z.disp = some x) (hvalid : Valid s'.view) (hnodup : (s'.sent ++ s'.got).Nodup)
    (hentry : s'.entry = update s.entry e none) (htable : s'.table = update s.table z.bucket ((s.table z.bucket).erase e))
    (hdisps : s'.disp = update s.disp z.disp (some x')) (hrefs : x'.refs = (x.refcount - 1, x.requests - 1))
    (husers : s'.users = s.users) (hsects : s'.sect = update s.sect z.disp p) (hp : p = .none ∨ p = .removed) : Inv m s' := by
  have hlt : z.bucket < m.nbuckets := by
    rw [(hinv.bucket e z hz).2]
    exact Nat.mod_lt _ m.nbuckets_pos
  have hself : s'.entry e = none := by
    rw [hentry]
    exact update_self ..
  have hother : ∀ {e'}, e' ≠ e → s'.entry e' = s.entry e' := by
    intro e' hne
    rw [hentry]
    exact update_of_ne hne ..
  have hold : ∀ {e' z'}, s'.entry e' = some z' → e' ≠ e ∧ s.entry e' = some z' := by
    intro e' z' hz'
    have hne : e' ≠ e := by
      rintro rfl
      cases hself.symm.trans hz'
    exact ⟨hne, (hother hne).symm.trans hz'⟩
  have hgone : ∀ {b e'}, e' ∈ s'.table b → e' ∈ s.table b ∧ e' ≠ e := by
    intro b e' he'
    rw [htable] at he'
    by_cases hbb : b = z.bucket
    · subst hbb
      rw [update_self] at he'
      obtain ⟨hne, hmem⟩ := (hinv.table_nodup _).mem_erase_iff.1 he'
      exact ⟨hmem, hne⟩
    rw [update_of_ne hbb] at he'
    refine ⟨he', ?_⟩
    rintro rfl
    obtain ⟨z', hz', hb⟩ := hinv.linked b e' he'
    rw [Option.some.inj (hz'.symm.trans hz)] at hb
    exact hbb hb.symm
  have hlinear : (linear m s).Perm (e :: linear m s') := by
    obtain ⟨rest, hrest⟩ := flatMap_update_perm s.table hlt
    have hfull : (linear m s).Perm (s.table z.bucket ++ rest) := by
      have hl := hrest (s.table z.bucket)
      rw [update_eq_self] at hl
      exact hl
    have hnew : (linear m s').Perm ((s.table z.bucket).erase e ++ rest) := by
      unfold linear
      rw [htable]
      exact hrest _
    exact hfull.trans (((perm_cons_erase (hinv.bucket e z hz).1).append_right rest).trans (hnew.symm.cons e))
  have hentries := entriesOf_cons hlinear
    (fun hmem => by
      obtain ⟨b, -, hb⟩ := mem_flatMap.1 hmem
      exact (hgone hb).2 rfl) hz (fun e' hne => by rw [hother hne])
  have hrefcount : x'.refcount = x.refcount - 1 := congrArg Prod.fst hrefs
  have hrequests : x'.requests = x.requests - 1 := congrArg Prod.snd hrefs
  refine ⟨hvalid, hnodup, fun e' z' hz' => hinv.items_nodup e' z' (hold hz').2, fun b => ?_, fun b e' he' => ?_,
    fun e' z' hz' => ?_, fun d' y hy => ?_, fun d' dest id b port k' hd' => ?_, fun d' e' hd' => ?_⟩
  · rw [htable]
    by_cases hbb : b = z.bucket
    · subst hbb
      rw [update_self]
      exact (hinv.table_nodup _).erase e
    · rw [update_of_ne hbb]
      exact hinv.table_nodup b
  · obtain ⟨hmem, hne⟩ := hgone he'
    obtain ⟨z', hz', hb⟩ := hinv.linked b e' hmem
    exact ⟨z', (hother hne).trans hz', hb⟩
  · obtain ⟨hne, hz'⟩ := hold hz'
    obtain ⟨hmem, hb⟩ := hinv.bucket e' z' hz'
    refine ⟨?_, hb⟩
    rw [htable]
    by_cases hbb : z'.bucket = z.bucket
    · rw [hbb, update_self]
      exact (hinv.table_nodup _).mem_erase_iff.2 ⟨hne, hbb ▸ hmem⟩
    · rw [update_of_ne hbb]
      exact hmem
  · rw [husers]
    have hcount := hentries d'
    by_cases hdd : d' = z.disp
    · subst hdd
      rw [hdisps, update_self] at hy
      obtain ⟨hold1, hold2⟩ := hinv.refs z.disp x hd
      rw [if_pos rfl] at hcount
      rw [← Option.some.inj hy]
      exact ⟨by omega, by omega⟩
    rw [hdisps, update_of_ne hdd] at hy
    obtain ⟨hold1, hold2⟩ := hinv.refs d' y hy
    rw [if_neg (fun heq => hdd heq.symm)] at hcount
    exact ⟨hold1, by omega⟩
  · rw [hsects] at hd'
    by_cases hdd : d' = z.disp
    · subst hdd
      rw [update_self] at hd'
      obtain rfl | rfl := hp <;> cases hd'
    · rw [update_of_ne hdd] at hd'
      exact hinv.adding d' dest id b port k' hd'
  · rw [hsects] at hd'
    by_cases hdd : d' = z.disp
    · subst hdd
      rw [update_self] at hd'
      obtain rfl | rfl := hp <;> cases hd'
    rw [update_of_ne hdd] at hd'
    obtain ⟨z', hz', hdz⟩ := hinv.added d' e' hd'
    have hne : e' ≠ e := by
      rintro rfl
      rw [Option.some.inj (hz'.symm.trans hz)] at hdz
      exact hdd hdz.symm
    exact ⟨z', (hother hne).trans hz', hdz⟩

end table

end Bind9.Dispatch
