import Bind9.DispatchInv

/-! # The runs of dispatches

Each section keeps the invariant, when `do_cancel` finds an entry of its dispatch, an entry that is put into the table finds no
other one for the same peer, id and port there, and an entry that is taken back has got no event meanwhile. -/

namespace Bind9.Dispatch

open List
open Function

set_option linter.unusedSectionVars false

variable {D E S V : Type} [DecidableEq D] [DecidableEq E] [DecidableEq S] [DecidableEq V]

/-! ### Packets -/

variable {k : Option S}

section packets

variable {m : Manager} {s s' : State D E S V} {d : D} {e : E}

theorem Inv.setSect (hinv : Inv m s) {p : Section E S}
    (hadding : ∀ dest id b port k, p = .adding dest id b port k → b = dnsHash m dest id port)
    (hadded : ∀ e, p = .added e → ∃ z, s.entry e = some z ∧ z.disp = d) : Inv m (s.setSect d p) := by
  refine ⟨hinv.valid, hinv.nodup, hinv.items_nodup, hinv.table_nodup, hinv.linked, hinv.bucket, hinv.refs,
    fun d' dest id b port k hd' => ?_, fun d' e hd' => ?_⟩
  · have hd' : update s.sect d p d' = .adding dest id b port k := hd'
    by_cases hdd : d' = d
    · subst hdd
      rw [update_self] at hd'
      exact hadding dest id b port k hd'
    · rw [update_of_ne hdd] at hd'
      exact hinv.adding d' dest id b port k hd'
  · have hd' : update s.sect d p d' = .added e := hd'
    by_cases hdd : d' = d
    · subst hdd
      rw [update_self] at hd'
      exact hadded e hd'
    · rw [update_of_ne hdd] at hd'
      exact hinv.added d' e hd'

variable {dest : SockAddr}

theorem entrySearch_some {id port b : ℕ} (h : entrySearch s dest id port b = some e) :
    ∃ z, s.entry e = some z ∧ z.id = id ∧ z.host = dest ∧ z.port = port := by
  have hfound := find?_some h
  cases hz : s.entry e with
  | none =>
    rw [hz] at hfound
    cases hfound
  | some z =>
    rw [hz] at hfound
    simp only [Bool.and_eq_true, beq_iff_eq] at hfound
    exact ⟨z, rfl, hfound.1.1, hfound.1.2, hfound.2⟩

section

variable {c : Content}

theorem recvEntry_deliver {x : Disp S V} {p : Packet} {e' : E} (h : recvEntry s d x e p = .ok (.deliver e' c)) :
    e' = e ∧ c = .packet s.received p := by
  obtain ⟨z, -, h⟩ := bind_eq_ok h
  split at h
  · cases h
    exact ⟨rfl, rfl⟩
  obtain ⟨x', -, h⟩ := bind_eq_ok h
  have h : (if compatible x x' then Target.deliver e (.packet s.received p) else .restart) = .deliver e' c := Except.ok.inj h
  split at h
  · cases h
    exact ⟨rfl, rfl⟩
  · cases h

theorem recvPacket_deliver {x : Disp S V} {resp : Option E} {p : Packet}
    (h : recvPacket m s d x resp p = .ok (.deliver e c)) :
    ∃ z, s.entry e = some z ∧ z.key.accepts p ∧ c = .packet s.received p := by
  unfold recvPacket at h
  split at h
  · cases h
  split at h
  · cases h
  next id flags hpeek =>
    split at h
    · cases h
    next hflags =>
      rw [Bool.not_eq_false] at hflags
      split at h
      · split at h
        · cases h
        next e' hsearch =>
          obtain ⟨rfl, hc⟩ := recvEntry_deliver h
          obtain ⟨z, hz, hid, hhost, -⟩ := entrySearch_some hsearch
          exact ⟨z, hz, ⟨hhost.symm, flags, by rw [hpeek, ← hid]; rfl, hflags⟩, hc⟩
      next e' =>
        obtain ⟨z, hz, h⟩ := bind_eq_ok h
        split at h
        next hmatch =>
          obtain ⟨rfl, hc⟩ := recvEntry_deliver h
          exact ⟨z, deref_ok hz, ⟨hmatch.2, flags, by rw [hpeek, ← hmatch.1]; rfl, hflags⟩, hc⟩
        · cases h

theorem recvTarget_deliver {r : Received} (h : recvTarget m s d k r = .ok (.deliver e c)) :
    (∃ z, s.entry e = some z ∧ z.key.accepts r.packet ∧ c = .packet s.received r.packet ∧ r.result = .success) ∨
    c = .failure r.result ∧ r.result ≠ .success ∧ ∃ k' y, k = some k' ∧ s.dispsocket k' = some y ∧ y.resp = some e := by
  obtain ⟨x, -, h⟩ := bind_eq_ok h
  split at h
  · cases h
  split at h
  · cases k with
    | none => cases h
    | some k =>
      obtain ⟨y, hy, h⟩ := bind_eq_ok h
      obtain ⟨e', he', h⟩ := bind_eq_ok h
      split at h
      next hresult =>
        cases h
        exact .inr ⟨rfl, hresult, k, y, rfl, deref_ok hy, deref_ok he'⟩
      next hresult =>
        obtain ⟨z, hz, haccepts, hc⟩ := recvPacket_deliver h
        exact .inl ⟨z, hz, haccepts, hc, not_not.1 hresult⟩
  split at h
  · cases h
  next hresult =>
    obtain ⟨z, hz, haccepts, hc⟩ := recvPacket_deliver h
    exact .inl ⟨z, hz, haccepts, hc, not_not.1 hresult⟩

theorem Inv.delivered (hinv : Inv m s) {l : List (ℕ × E)} : Inv m { s with delivered := l } :=
  ⟨hinv.valid, hinv.nodup, hinv.items_nodup, hinv.table_nodup, hinv.linked, hinv.bucket, hinv.refs, hinv.adding, hinv.added⟩

end

variable {v : Option V}

theorem Inv.udpRecv (hinv : Inv m s) {dispsock : Option S} {r : Received} {closed : Bool}
    (hv : ∀ x, v = some x → s.event x = none) (h : udpRecv m s d dispsock r v closed = .ok s') : Inv m s' := by
  obtain ⟨⟨s1, k⟩, hbegin, h⟩ := bind_eq_ok h
  obtain ⟨target, htarget, h⟩ := bind_eq_ok h
  have hsame := same_recvBegin hbegin
  have hinv1 := hinv.same hsame
  have hrestart : ∀ {s2 : State D E S V}, Inv m s2 → Inv m (s2.setSect d (.restart k)) :=
    fun hinv2 => hinv2.setSect (fun _ _ _ _ _ hp => by cases hp) (fun _ hp => by cases hp)
  cases target with
  | drop =>
    cases h
    exact hinv1.tick
  | restart =>
    cases h
    exact hrestart hinv1.tick
  | deliver e c =>
    cases v with
    | none =>
      cases h
      exact hrestart hinv1.tick
    | some x =>
      obtain ⟨s2, h2, h⟩ := bind_eq_ok h
      cases h
      have hx : s1.event x = none := by
        rw [hsame.event]
        exact hv x rfl
      obtain ⟨z, hz, -⟩ := bind_eq_ok h2
      refine hrestart (Inv.delivered (hinv1.tick.deliver hx (deref_ok hz) ?_ h2).1)
      obtain ⟨z', hz', haccepts, rfl, -⟩ | ⟨rfl, -⟩ := recvTarget_deliver htarget
      · have hzz : z' = z := Option.some.inj (hz'.symm.trans (deref_ok hz))
        subst hzz
        refine ⟨haccepts, Nat.lt_succ_self _, fun x' p' hx' => ?_⟩
        exact Nat.lt_irrefl _ (hinv1.valid.number x' s1.received p' hx')
      · exact trivial

theorem Inv.killOldest (hinv : Inv m s) (hv : ∀ x, v = some x → s.event x = none)
    (h : killOldest s d v = .ok s') : Inv m s' ∧ s'.sect = s.sect := by
  obtain ⟨x, hx, h⟩ := bind_eq_ok h
  split at h
  · obtain ⟨k, -, h⟩ := bind_eq_ok h
    obtain ⟨y, -, h⟩ := bind_eq_ok h
    have hinv1 : Inv m (s.setDisp d { x with activesockets := x.activesockets.tail ++ [k] }) :=
      hinv.same (same_setDisp (deref_ok hx) rfl)
    cases hresp : y.resp with
    | none =>
      rw [hresp] at h
      cases h
      exact ⟨hinv1, rfl⟩
    | some e =>
      rw [hresp] at h
      cases v with
      | none =>
        cases h
        exact ⟨hinv1, rfl⟩
      | some w =>
        obtain ⟨z, hz, h⟩ := bind_eq_ok h
        split at h
        · cases h
          exact ⟨hinv1, rfl⟩
        have hw : (s.setDisp d { x with activesockets := x.activesockets.tail ++ [k] }).event w = none := hv w rfl
        obtain ⟨hinv2, hsect, -⟩ := hinv1.deliver (c := .canceled) hw (deref_ok hz) trivial h
        exact ⟨hinv2, hsect⟩
  · cases h
    exact ⟨hinv, rfl⟩

theorem findId_some {port n id id' b : ℕ} (h : findId m s dest port n id = some (id', b)) : b = dnsHash m dest id' port := by
  induction n generalizing id with
  | zero => cases h
  | succ n ih =>
    unfold findId at h
    simp only at h
    split at h
    · cases h
      rfl
    · exact ih h

theorem Inv.addBegin (hinv : Inv m s) {random : ℕ} {choice : Choice S}
    (hv : ∀ x, v = some x → s.event x = none) (h : addBegin m s d dest random choice v = .ok s') : Inv m s' := by
  have hfound : ∀ {s1 s2 : State D E S V} {port : ℕ} {k : Option S}, Inv m s1 →
      (findId m s1 dest port 64 (random % 65536) = none → s2 = s1) →
      (∀ id b, findId m s1 dest port 64 (random % 65536) = some (id, b) → s2 = s1.setSect d (.adding dest id b port k)) → Inv m s2 := by
    intro s1 s2 port k hinv1 hnone hsome
    cases hid : findId m s1 dest port 64 (random % 65536) with
    | none => exact hnone hid ▸ hinv1
    | some found =>
      rw [hsome found.1 found.2 hid]
      refine hinv1.setSect (fun _ _ _ _ _ hp => ?_) (fun _ hp => by cases hp)
      cases hp
      exact findId_some hid
  obtain ⟨x, -, h⟩ := bind_eq_ok h
  split at h
  · cases h
    exact hinv
  obtain ⟨s1, h1, h⟩ := bind_eq_ok h
  have hinv1 := (hinv.killOldest hv h1).1
  split at h
  · obtain ⟨⟨s2, found⟩, h2, h⟩ := bind_eq_ok h
    have hinv2 := hinv1.same (same_getDispsocket h2)
    simp only at h
    split at h
    · cases h
      exact hinv2
    · cases h
      exact hfound hinv2 (fun h => by rw [h]) (fun id b h => by rw [h])
  · cases h
    exact hfound hinv1 (fun h => by rw [h]) (fun id b h => by rw [h])

end packets

/-! ### Queries -/

section queries

variable {m : Manager} {s s' : State D E S V} {d : D} {e : E} {z : Entry D S V} {x : Disp S V}

theorem Inv.addInsert (hinv : Inv m s) {dest : SockAddr} {id b port : ℕ} (he : s.entry e = none)
    (hsect : s.sect d = .adding dest id b port k) (hfree : entrySearch s dest id port b = none)
    (h : addInsert s d dest id b port k e = .ok s') : Inv m s' := by
  obtain ⟨x, hx, h⟩ := bind_eq_ok h
  obtain ⟨s1, h1, h⟩ := bind_eq_ok h
  cases h
  cases k with
  | none =>
    cases h1
    exact hinv.insert (z := ⟨d, id, port, b, dest, false, none, []⟩) (deref_ok hx) he ⟨none, hsect⟩ rfl rfl rfl hfree rfl rfl
      rfl rfl rfl rfl rfl rfl rfl
  | some k =>
    obtain ⟨y, -, h1⟩ := bind_eq_ok h1
    cases h1
    exact hinv.insert (z := ⟨d, id, port, b, dest, false, some k, []⟩) (deref_ok hx) he ⟨some k, hsect⟩ rfl rfl rfl hfree rfl rfl
      rfl rfl rfl rfl rfl rfl rfl

theorem Inv.addFail (hinv : Inv m s) (h : addFail s d k = .ok s') : Inv m s' := by
  obtain ⟨s1, h1, h⟩ := bind_eq_ok h
  cases h
  have hinv1 : Inv m s1 := by
    cases k with
    | none =>
      cases h1
      exact hinv
    | some k => exact hinv.same (same_destroyDispsocket h1)
  exact hinv1.setSect (fun _ _ _ _ _ hp => by cases hp) (fun _ hp => by cases hp)

theorem view_without (s : State D E S V) (e : E) (x' : Disp S V) (d : D) (event : V → Option Content)
    (sent got : List (V × E)) (hs : s'.entry = update s.entry e none)
    (hdisp : s'.disp = update s.disp d (some x')) (hevent : s'.event = event) (hsent : s'.sent = sent)
    (hgot : s'.got = got) (hreceived : s'.received = s.received)
    (hout : ∀ x e', (x, e') ∈ sent ++ got ↔ (x, e') ∈ s.sent ++ s.got ∧ e' ≠ e)
    (hfail : s.view.failsafe d = some x'.failsafeEv) :
    s'.view = { s.view with
      entry := update s.view.entry e none
      event := event
      out := fun x' e' => s.view.out x' e' ∧ e' ≠ e
      item := fun x' e' => s.view.item x' e' ∧ e' ≠ e
      itemOut := update s.view.itemOut e false
      shutdownOut := update s.view.shutdownOut d x'.shutdownOut } := by
  unfold State.view
  rw [hs, hdisp, hevent, hsent, hgot, hreceived]
  congr 1
  · funext e'
    by_cases he : e' = e
    · subst he
      simp only [update_self]
      rfl
    · simp only [update_of_ne he]
  · funext x e'
    exact propext (hout x e')
  · funext x e'
    apply propext
    by_cases he : e' = e
    · subst he
      simp only [update_self, ne_eq, not_true_eq_false, and_false, reduceCtorEq, false_and, exists_false]
    · simp only [update_of_ne he, ne_eq, he, not_false_eq_true, and_true]
  · funext e'
    by_cases he : e' = e
    · subst he
      simp only [update_self]
      rfl
    · simp only [update_of_ne he]
  · funext d'
    by_cases hd : d' = d
    · subst hd
      simp only [update_self]
      exact hfail.symm
    · simp only [update_of_ne hd]
  · funext d'
    by_cases hd : d' = d
    · subst hd
      simp only [update_self]
      rfl
    · simp only [update_of_ne hd]

/-- The entry of `dns_dispatch_addresponse2` is taken back, when it has no event. -/
theorem Inv.addUndo (hinv : Inv m s) (hz : s.entry e = some z) (hdisp : z.disp = d) (hout : z.itemOut = false)
    (h : addUndo s d e = .ok s') : Inv m (s'.setSect d .none) := by
  obtain ⟨z', hz', h⟩ := bind_eq_ok h
  have hzz : z' = z := Option.some.inj ((deref_ok hz').symm.trans hz)
  subst hzz
  obtain ⟨s1, h1, h⟩ := bind_eq_ok h
  obtain ⟨y, hy, h⟩ := bind_eq_ok h
  cases h
  have hnone : ∀ v, (v, e) ∉ s.sent ++ s.got := by
    intro v hmem
    have htrue := (hinv.valid.item_out e).2 ⟨v, hmem⟩
    rw [view_itemOut hz, hout] at htrue
    cases htrue
  have hnoitem : ∀ v, ¬ s.view.item v e := by
    intro v hmem
    have htrue := hinv.valid.item_behind v e hmem
    rw [view_itemOut hz, hout] at htrue
    cases htrue
  -- the state behind the socket: only the dispatch has changed, and that not in what matters
  have hsock : ∃ x y', s.disp d = some x ∧ s1.disp = update s.disp d (some y') ∧ y'.core = x.core ∧
      s1.entry = s.entry ∧ s1.table = update s.table z'.bucket ((s.table z'.bucket).erase e) ∧
      s1.event = s.event ∧ s1.sent = s.sent ∧ s1.got = s.got ∧ s1.users = s.users ∧ s1.received = s.received ∧
      s1.sect = s.sect := by
    cases hk : z'.dispsocket with
    | none =>
      rw [hk] at h1
      cases h1
      exact ⟨y, y, deref_ok hy, (update_eq_self_iff.2 (deref_ok hy).symm).symm, rfl, rfl, rfl, rfl, rfl, rfl, rfl,
        rfl, rfl⟩
    | some k =>
      rw [hk] at h1
      obtain ⟨x, hx, h1⟩ := bind_eq_ok h1
      cases h1
      exact ⟨x, _, deref_ok hx, rfl, rfl, rfl, rfl, rfl, rfl, rfl, rfl, rfl, rfl⟩
  obtain ⟨x, y', hx, hdisps, hcore, hentry, htable, hevent, hsent, hgot, husers, hreceived, hsect⟩ := hsock
  have hyy : y = y' := by
    have hself : s1.disp d = some y' := by
      rw [hdisps]
      exact update_self ..
    exact Option.some.inj ((deref_ok hy).symm.trans hself)
  subst hyy
  have hrefcount : y.refcount = x.refcount := congrArg (fun c : ℕ × ℕ × V × Bool => c.1) hcore
  have hrequests : y.requests = x.requests := congrArg (fun c : ℕ × ℕ × V × Bool => c.2.1) hcore
  have hfailsafe : y.failsafeEv = x.failsafeEv := congrArg (fun c : ℕ × ℕ × V × Bool => c.2.2.1) hcore
  have hshutdown : y.shutdownOut = x.shutdownOut := congrArg (fun c : ℕ × ℕ × V × Bool => c.2.2.2) hcore
  have hnewdisp : (s1.setDisp d { y with refcount := y.refcount - 1, requests := y.requests - 1 }).disp =
      update s.disp d (some { y with refcount := y.refcount - 1, requests := y.requests - 1 }) := by
    show update s1.disp d _ = _
    rw [hdisps, update_idem]
  have hfree : ∀ v e', (v, e') ∈ s.sent ++ s.got ↔ (v, e') ∈ s.sent ++ s.got ∧ e' ≠ e := by
    intro v e'
    refine ⟨fun hmem => ⟨hmem, ?_⟩, And.left⟩
    rintro rfl
    exact hnone v hmem
  have hnewentry : update s1.entry e none = update s.entry e none := by rw [hentry]
  have hnewsect : update s1.sect d Section.none = update s.sect d .none := by rw [hsect]
  have hnodup : (s1.sent ++ s1.got).Nodup := by
    rw [hsent, hgot]
    exact hinv.nodup
  subst hdisp
  refine hinv.remove (p := .none) hz hx ?_ hnodup hnewentry htable hnewdisp
    (Prod.ext (congrArg (· - 1) hrefcount) (congrArg (· - 1) hrequests)) husers hnewsect (Or.inl rfl)
  have hfreed : ∀ v, s.event v = none ↔
      s.event v = none ∨ (s.view.out v e ∨ s.view.item v e) ∧ s.view.failsafe z'.disp ≠ some v := by
    intro v
    refine ⟨Or.inl, fun hv => hv.elim id (fun hgone => ?_)⟩
    obtain hgone | hgone := hgone.1
    · exact absurd hgone (hnone v)
    · exact absurd hgone (hnoitem v)
  have hmove := hinv.valid.move (Move.remove e z'.disp z'.key s.event y.shutdownOut (view_entry hz) hfreed (fun _ _ hc => hc)
    ⟨fun hs => ⟨(view_shutdownOut hx).trans (hshutdown.symm.trans hs), fun v _ => hnone v⟩,
      fun hs => hshutdown.trans ((view_shutdownOut hx).symm.trans hs.1)⟩)
  refine Eq.mp (congrArg Valid ?_) hmove
  have hfail : s.view.failsafe z'.disp = some y.failsafeEv := (view_failsafe hx).trans (congrArg some hfailsafe.symm)
  apply Eq.symm
  exact view_without s e { y with refcount := y.refcount - 1, requests := y.requests - 1 } z'.disp s.event s.sent s.got
    hnewentry hnewdisp hevent hsent hgot hreceived hfree hfail

theorem Inv.setDisp (hinv : Inv m s) {x' : Disp S V} (hx : s.disp d = some x) (hcore : x'.core = x.core) :
    Inv m (s.setDisp d x') := hinv.same (same_setDisp hx hcore)

theorem cancelOk_shuttingDown (hx : s.disp d = some x) (hok : cancelOk m s d = true) :
    cancelOk m (s.setDisp d { x with shuttingDown := true }) d = true := by
  have hself : (s.setDisp d { x with shuttingDown := true }).disp d = some { x with shuttingDown := true } :=
    update_self ..
  unfold cancelOk at hok ⊢
  rw [hx] at hok
  rw [hself]
  exact hok

variable {start : Start}

theorem Inv.startrecv (hinv : Inv m s) {ok : Bool} (hx : s.disp d = some x)
    (hok : x.startCancels k start = true → cancelOk m s d = true) (h : startrecv m s d k start = .ok (s', ok)) :
    Inv m s' ∧ s'.sect = s.sect ∧ ok = !x.startFails k start ∧ (x.startFails k start = true → Same s s') := by
  obtain ⟨hresult, ⟨-, hsame⟩ | ⟨hcancels, hcancel⟩⟩ := startrecv_spec hx h
  · exact ⟨hinv.same hsame, hsame.sect, hresult, fun _ => hsame⟩
  have hinv1 : Inv m (s.setDisp d { x with shuttingDown := true }) := hinv.setDisp hx rfl
  obtain ⟨hinv', hsect⟩ := hinv1.doCancel (cancelOk_shuttingDown hx (hok hcancels)) hcancel
  refine ⟨hinv', hsect, hresult, fun hfails => ?_⟩
  -- a receive on the socket of the dispatch does not fail
  unfold Disp.startCancels at hcancels
  unfold Disp.startFails at hfails
  simp only [Bool.and_eq_true, Bool.or_eq_true, beq_iff_eq, Bool.not_eq_true'] at hcancels hfails
  obtain ⟨-, hstart | ⟨hsome, -⟩⟩ := hfails
  · rw [hcancels.2] at hstart
    cases hstart
  · rw [Option.isNone_iff_eq_none.1 hcancels.1.2] at hsome
    cases hsome

theorem Inv.unlock (hinv : Inv m s) : Inv m (s.setSect d .none) :=
  hinv.setSect (fun _ _ _ _ _ hp => by cases hp) (fun _ hp => by cases hp)

theorem Inv.addEnd (hinv : Inv m s) (hz : s.entry e = some z) (hdisp : z.disp = d) (hx : s.disp d = some x)
    (hok : x.startCancels z.dispsocket start = true → cancelOk m s d = true)
    (hout : x.startFails z.dispsocket start = true → z.itemOut = false) (h : addEnd m s d e start = .ok s') : Inv m s' := by
  unfold Dispatch.addEnd at h
  rw [hz] at h
  simp only [deref, ok_then] at h
  obtain ⟨⟨s1, ok⟩, h1, h⟩ := bind_eq_ok h
  obtain ⟨hinv1, -, hresult, hfails⟩ := hinv.startrecv hx hok h1
  split at h
  · obtain ⟨y, hy, h⟩ := bind_eq_ok h
    cases h
    refine Inv.unlock ?_
    exact hinv1.setDisp (deref_ok hy) rfl
  next hfail =>
    rw [hresult, Bool.not_eq_true, Bool.not_eq_false'] at hfail
    have hsame := hfails hfail
    obtain ⟨s2, h2, h⟩ := bind_eq_ok h
    cases h
    obtain ⟨z', hz', hcore⟩ := map_some (hsame.entry e).symm hz
    obtain ⟨hdisp', -, -, hout', -⟩ := Entry.of_core_eq hcore
    exact hinv1.addUndo hz' (hdisp'.symm.trans hdisp) (hout'.symm.trans (hout hfail)) h2

theorem Inv.recvEnd (hinv : Inv m s) {closed : Bool} (hx : s.disp d = some x)
    (hok : x.startCancels k start = true → cancelOk m s d = true) (h : recvEnd m s d k start closed = .ok s') : Inv m s' := by
  obtain ⟨⟨s1, ok⟩, h1, h⟩ := bind_eq_ok h
  obtain ⟨hinv1, -⟩ := hinv.startrecv hx hok h1
  simp only at h
  split at h
  · obtain ⟨s2, h2, h⟩ := bind_eq_ok h
    cases h
    exact (hinv1.same (same_deactivateDispsocket h2)).unlock
  · cases h
    exact hinv1.unlock

theorem Inv.removeEnd (hinv : Inv m s) (hx : s.disp d = some x)
    (hok : x.shuttingDown = true ∨ x.startCancels none start = true → cancelOk m s d = true)
    (h : removeEnd m s d start = .ok s') : Inv m s' := by
  unfold Dispatch.removeEnd at h
  rw [hx] at h
  simp only [deref, ok_then] at h
  split at h
  next hshut =>
    obtain ⟨s1, h1, h⟩ := bind_eq_ok h
    cases h
    exact (hinv.doCancel (hok (Or.inl hshut)) h1).1.unlock
  · obtain ⟨⟨s1, ok⟩, h1, h⟩ := bind_eq_ok h
    cases h
    exact (hinv.startrecv hx (fun hc => hok (Or.inr hc)) h1).1.unlock

theorem Inv.cancel (hinv : Inv m s) (hx : s.disp d = some x) (hok : x.shuttingDown = false → cancelOk m s d = true)
    (h : cancel m s d = .ok s') : Inv m s' := by
  unfold Dispatch.cancel at h
  rw [hx] at h
  simp only [deref, ok_then] at h
  split at h
  · cases h
    exact hinv
  next hshut =>
    rw [Bool.not_eq_true] at hshut
    have hinv1 : Inv m (s.setDisp d { x with shuttingDown := true }) := hinv.setDisp hx rfl
    exact (hinv1.doCancel (cancelOk_shuttingDown hx (hok hshut)) h).1

/-! ### Removing an entry -/

theorem freeEvents_spec {l : List V} (hx : s.disp d = some x) (h : freeEvents s d l = .ok s') :
    s' = { s with
      disp := update s.disp d (some { x with shutdownOut := if x.failsafeEv ∈ l then false else x.shutdownOut })
      event := fun v => if v ∈ l ∧ v ≠ x.failsafeEv then none else s.event v } := by
  induction l generalizing s x with
  | nil =>
    obtain rfl : s' = s := (Except.ok.inj h).symm
    have hdisp : update s'.disp d (some x) = s'.disp := update_eq_self_iff.2 hx.symm
    simp only [not_mem_nil, if_false, false_and]
    rw [hdisp]
  | cons v l ih =>
    obtain ⟨s1, h1, h⟩ := bind_eq_ok h
    have h1 : freeDevent s d v = .ok s1 := h1
    unfold freeDevent at h1
    rw [hx] at h1
    simp only [deref, ok_then] at h1
    split at h1
    next hv =>
      obtain ⟨_, -, h1⟩ := bind_eq_ok h1
      cases h1
      rw [ih (update_self ..) h]
      unfold State.setDisp
      simp only [update_idem]
      have hmem : x.failsafeEv ∈ v :: l := hv ▸ mem_cons_self
      have hout : (if x.failsafeEv ∈ l then false else false) = if x.failsafeEv ∈ v :: l then false else x.shutdownOut := by
        rw [if_pos hmem, ite_self]
      congr 1
      · rw [hout]
      · funext w
        by_cases hw : w = x.failsafeEv
        · simp [hw]
        · have hne : w ≠ v := fun heq => hw (heq.trans hv.symm)
          simp [hw, hne]
    next hv =>
      obtain ⟨_, -, h1⟩ := bind_eq_ok h1
      cases h1
      have hx1 : (s.setEvent v none).disp d = some x := hx
      rw [ih hx1 h]
      unfold State.setEvent
      congr 1
      · simp [hv]
      · funext w
        by_cases hw : w = v
        · subst hw
          have hne : w ≠ x.failsafeEv := fun heq => hv heq.symm
          simp [hne]
        · simp [hw]

theorem freeEvents_total {l : List V} (hx : s.disp d = some x) (hl : l.Nodup)
    (hevent : ∀ v ∈ l, v ≠ x.failsafeEv → (s.event v).isSome = true) (hfail : x.failsafeEv ∈ l → x.shutdownOut = true) :
    ∃ s', freeEvents s d l = .ok s' := by
  induction l generalizing s x with
  | nil => exact ⟨s, rfl⟩
  | cons v l ih =>
    obtain ⟨hv, hl⟩ := nodup_cons.1 hl
    have hstep : ∃ s1 x1, freeDevent s d v = .ok s1 ∧ s1.disp d = some x1 ∧ x1.failsafeEv = x.failsafeEv ∧
        (∀ w ∈ l, w ≠ x.failsafeEv → (s1.event w).isSome = true) ∧ (x.failsafeEv ∈ l → x1.shutdownOut = true) := by
      unfold freeDevent
      rw [hx]
      simp only [deref, ok_then]
      by_cases hvx : x.failsafeEv = v
      · rw [if_pos hvx, hfail (hvx ▸ mem_cons_self)]
        refine ⟨_, _, rfl, update_self .., rfl, fun w hw hne => hevent w (mem_cons_of_mem v hw) hne, ?_⟩
        intro hmem
        exact absurd (hvx ▸ hmem) hv
      rw [if_neg hvx, hevent v mem_cons_self (fun heq => hvx heq.symm)]
      refine ⟨_, x, rfl, hx, rfl, fun w hw hne => ?_, fun hmem => hfail (mem_cons_of_mem v hmem)⟩
      have hwv : w ≠ v := fun heq => hv (heq ▸ hw)
      show (update s.event v none w).isSome = true
      rw [update_of_ne hwv]
      exact hevent w (mem_cons_of_mem v hw) hne
    obtain ⟨s1, x1, h1, hx1, hfail1, hevent1, hshut1⟩ := hstep
    obtain ⟨s', hs'⟩ := ih hx1 hl (fun w hw hne => hevent1 w hw (hfail1 ▸ hne)) (fun hmem => hshut1 (hfail1 ▸ hmem))
    refine ⟨s', ?_⟩
    unfold freeEvents
    rw [foldlM_cons, h1]
    exact hs'

/-- What a caller that removes an entry knows of its event. -/
def callerHas (s : State D E S V) (e : E) : Option V → Prop
  | some v => (v, e) ∈ s.got
  | none => ∀ x ∈ s.got, x.2 ≠ e

theorem filter_eq_singleton {l : List (V × E)} {v : V} (hl : l.Nodup) (hv : (v, e) ∈ l)
    (hone : ∀ v', (v', e) ∈ l → v' = v) : l.filter (fun x => x.2 == e) = [(v, e)] := by
  have hmem : (v, e) ∈ l.filter (fun x => x.2 == e) := mem_filter.2 ⟨hv, beq_self_eq_true e⟩
  have hall : ∀ y ∈ l.filter (fun x => x.2 == e), y = (v, e) := by
    rintro ⟨v', e'⟩ hy
    obtain ⟨hmem', heq⟩ := mem_filter.1 hy
    have heq : e' = e := beq_iff_eq.1 heq
    rw [heq] at hmem' ⊢
    rw [hone v' hmem']
  have hnodup := hl.filter (fun x => x.2 == e)
  exact perm_singleton.1 ((perm_ext_iff_of_nodup hnodup (nodup_singleton _)).2 (fun y =>
    ⟨fun hy => mem_singleton.2 (hall y hy), fun hy => mem_singleton.1 hy ▸ hmem⟩))

theorem takeEvent_spec {itemOut : Bool} {ev : Option V} (hnodup : (s.sent ++ s.got).Nodup)
    (hone : ∀ v v', (v, e) ∈ s.sent ++ s.got → (v', e) ∈ s.sent ++ s.got → v = v')
    (hout : itemOut = true ↔ ∃ v, (v, e) ∈ s.sent ++ s.got) (hev : callerHas s e ev) :
    ∃ sent got v, takeEvent s e itemOut ev = .ok ({ s with sent := sent, got := got }, v) ∧ (sent ++ got).Nodup ∧
      (∀ x e', (x, e') ∈ sent ++ got ↔ (x, e') ∈ s.sent ++ s.got ∧ e' ≠ e) ∧ ∀ w, w ∈ v.toList ↔ (w, e) ∈ s.sent ++ s.got := by
  obtain ⟨hsent, hgot, hdisjoint⟩ := nodup_append.1 hnodup
  cases ev with
  | some v =>
    have hmem : (v, e) ∈ s.sent ++ s.got := mem_append_right _ hev
    refine ⟨s.sent, s.got.erase (v, e), some v, rfl, ?_, fun x e' => ?_, fun w => ?_⟩
    · exact hnodup.sublist ((Sublist.refl _).append erase_sublist)
    · rw [mem_append, mem_append, hgot.mem_erase_iff]
      constructor
      · rintro (hx | ⟨hne, hx⟩)
        · refine ⟨Or.inl hx, ?_⟩
          rintro rfl
          rw [hone x v (mem_append_left _ hx) hmem] at hx
          exact hdisjoint _ hx _ hev rfl
        · refine ⟨Or.inr hx, ?_⟩
          rintro rfl
          rw [hone x v (mem_append_right _ hx) hmem] at hne
          exact hne rfl
      · rintro ⟨hx | hx, hne⟩
        · exact .inl hx
        · exact .inr ⟨fun heq => hne (congrArg Prod.snd heq), hx⟩
    · rw [Option.toList_some, mem_singleton]
      exact ⟨fun hw => hw ▸ hmem, fun hw => hone w v hw hmem⟩
  | none =>
    have hsentonly : ∀ {w}, (w, e) ∈ s.sent ++ s.got → (w, e) ∈ s.sent := by
      intro w hw
      exact (mem_append.1 hw).resolve_right (fun hg => hev _ hg rfl)
    cases itemOut with
    | false =>
      have hnone : ∀ w, (w, e) ∉ s.sent ++ s.got := by
        intro w hw
        cases hout.2 ⟨w, hw⟩
      refine ⟨s.sent, s.got, none, rfl, hnodup, fun x e' => ⟨fun hx => ⟨hx, ?_⟩, And.left⟩, fun w => ?_⟩
      · rintro rfl
        exact hnone x hx
      · exact ⟨fun hw => absurd hw not_mem_nil, fun hw => absurd hw (hnone w)⟩
    | true =>
      obtain ⟨v, hv⟩ := hout.1 rfl
      have hfilter := filter_eq_singleton hsent (hsentonly hv)
        (fun v' hv' => hone v' v (mem_append_left _ hv') hv)
      refine ⟨s.sent.filter (fun x => x.2 != e), s.got, some v, ?_, ?_, fun x e' => ?_, fun w => ?_⟩
      · unfold takeEvent
        simp only [if_true, hfilter]
        rfl
      · exact hnodup.sublist (filter_sublist.append (Sublist.refl _))
      · rw [mem_append, mem_append, mem_filter]
        constructor
        · rintro (⟨hx, hne⟩ | hx)
          · exact ⟨Or.inl hx, bne_iff_ne.1 hne⟩
          · exact ⟨Or.inr hx, fun heq => hev _ hx heq⟩
        · rintro ⟨hx | hx, hne⟩
          · exact .inl ⟨hx, bne_iff_ne.2 hne⟩
          · exact .inr hx
      · rw [Option.toList_some, mem_singleton]
        exact ⟨fun hw => hw ▸ hv, fun hw => hone w v hw hv⟩

theorem unrequest_spec (hx : s.disp d = some x) (h : unrequest s d = .ok s') :
    ∃ x', s' = s.setDisp d x' ∧ x'.refs = (x.refcount - 1, x.requests - 1) ∧ x'.failsafeEv = x.failsafeEv ∧
      x'.shutdownOut = x.shutdownOut := by
  unfold unrequest at h
  rw [hx] at h
  simp only [deref, ok_then] at h
  obtain ⟨_, -, h⟩ := bind_eq_ok h
  unfold unref at h
  have hself : (s.setDisp d { x with requests := x.requests - 1 }).disp d = some { x with requests := x.requests - 1 } :=
    update_self ..
  rw [hself] at h
  simp only [deref, ok_then] at h
  obtain ⟨_, -, h⟩ := bind_eq_ok h
  cases h
  refine ⟨{ x with requests := x.requests - 1, refcount := x.refcount - 1, shuttingDown := x.shuttingDown || x.refcount == 1 },
    ?_, rfl, rfl, rfl⟩
  unfold State.setDisp
  simp only [update_idem]

theorem unrequest_total (hx : s.disp d = some x) (hrequests : 0 < x.requests) (hrefcount : 0 < x.refcount) :
    ∃ s', unrequest s d = .ok s' := by
  unfold unrequest
  rw [hx]
  simp only [deref, ok_then]
  rw [require_true (decide_eq_true hrequests), ok_then]
  unfold unref
  have hself : (s.setDisp d { x with requests := x.requests - 1 }).disp d = some { x with requests := x.requests - 1 } :=
    update_self ..
  rw [hself]
  simp only [deref, ok_then]
  rw [require_true (decide_eq_true hrefcount)]
  exact ⟨_, rfl⟩

theorem dropSocket_spec (h : dropSocket s k = .ok s') : ∃ f, s' = { s with dispsocket := f } := by
  unfold dropSocket at h
  split at h
  · cases h
    exact ⟨s.dispsocket, rfl⟩
  obtain ⟨y, -, h⟩ := bind_eq_ok h
  cases h
  exact ⟨_, rfl⟩

theorem Inv.removeresponse (hinv : Inv m s) {ev : Option V} (hz : s.entry e = some z) (hx : s.disp z.disp = some x)
    (hev : callerHas s e ev) (h : removeresponse s e ev = .ok s') : Inv m s' := by
  obtain ⟨z', hz', h⟩ := bind_eq_ok h
  have hzz : z' = z := Option.some.inj ((deref_ok hz').symm.trans hz)
  subst hzz
  obtain ⟨s1, h1, h⟩ := bind_eq_ok h
  obtain ⟨x1, rfl, hrefs, hfail, hshut⟩ := unrequest_spec hx h1
  obtain ⟨⟨s3, v⟩, h3, h⟩ := bind_eq_ok h
  obtain ⟨_, -, h⟩ := bind_eq_ok h
  obtain ⟨s4, h4, h⟩ := bind_eq_ok h
  obtain ⟨s5, h5, h⟩ := bind_eq_ok h
  obtain ⟨s6, h6, h⟩ := bind_eq_ok h
  cases h
  -- the event that is out
  have hout : z'.itemOut = true ↔ ∃ v, (v, e) ∈ s.sent ++ s.got := by
    rw [← view_itemOut hz]
    exact hinv.valid.item_out e
  have hspec := takeEvent_spec (s := (s.setDisp z'.disp x1).setTable z'.bucket ((s.table z'.bucket).erase e)) (e := e)
    hinv.nodup (fun v v' => hinv.valid.out_event v v' e) hout hev
  obtain ⟨sent, got, v', htake, hnodup, hmem, hv⟩ := hspec
  cases Except.ok.inj (h3.symm.trans htake)
  -- the events that are freed
  have hself : ∀ sent got, ({ (s.setDisp z'.disp x1).setTable z'.bucket ((s.table z'.bucket).erase e) with
      sent := sent, got := got } : State D E S V).disp z'.disp = some x1 := fun _ _ => update_self ..
  have hs4 := freeEvents_spec (hself sent got) h4
  obtain ⟨f, hs5⟩ := dropSocket_spec h5
  have hself5 : s5.disp z'.disp = some { x1 with shutdownOut := if x1.failsafeEv ∈ v.toList then false else x1.shutdownOut } := by
    rw [hs5, hs4]
    exact update_self ..
  have hs6 := freeEvents_spec hself5 h6
  have hdisp6 : s6.disp = update s.disp z'.disp (some { x1 with
      shutdownOut := if x1.failsafeEv ∈ z'.items then false
        else if x1.failsafeEv ∈ v.toList then false else x1.shutdownOut }) := by
    rw [hs6, hs5, hs4]
    simp only [State.setTable, State.setDisp, update_idem]
  have hevent6 : s6.event = fun w => if w ∈ z'.items ∧ w ≠ x1.failsafeEv then none
      else if w ∈ v.toList ∧ w ≠ x1.failsafeEv then none else s.event w := by
    rw [hs6, hs5, hs4]
    rfl
  have hentry6 : s6.entry = s.entry := by
    rw [hs6, hs5, hs4]
    rfl
  have htable6 : s6.table = update s.table z'.bucket ((s.table z'.bucket).erase e) := by
    rw [hs6, hs5, hs4]
    rfl
  have hsent6 : s6.sent = sent := by rw [hs6, hs5, hs4]
  have hgot6 : s6.got = got := by rw [hs6, hs5, hs4]
  have husers6 : s6.users = s.users := by
    rw [hs6, hs5, hs4]
    rfl
  have hreceived6 : s6.received = s.received := by
    rw [hs6, hs5, hs4]
    rfl
  have hsect6 : s6.sect = s.sect := by
    rw [hs6, hs5, hs4]
    rfl
  have hfailsafe : s.view.failsafe z'.disp = some x1.failsafeEv := (view_failsafe hx).trans (congrArg some hfail.symm)
  have hnotitem : x1.failsafeEv ∉ z'.items :=
    fun hi => hinv.valid.failsafe_item _ _ e hfailsafe ((view_item hz).2 hi)
  rw [if_neg hnotitem] at hdisp6
  have hfreed : ∀ w, s6.event w = none ↔
      s.event w = none ∨ (s.view.out w e ∨ s.view.item w e) ∧ s.view.failsafe z'.disp ≠ some w := by
    intro w
    rw [hevent6, hfailsafe, view_item hz]
    have hw : s.view.out w e ↔ w ∈ v.toList := (hv w).symm
    rw [hw]
    have hne : some x1.failsafeEv ≠ some w ↔ w ≠ x1.failsafeEv :=
      ⟨fun hne heq => hne (congrArg some heq.symm), fun hne heq => hne (Option.some.inj heq).symm⟩
    rw [hne]
    by_cases h1 : w ∈ z'.items ∧ w ≠ x1.failsafeEv
    · simp only [if_pos h1, true_iff]
      exact .inr ⟨Or.inr h1.1, h1.2⟩
    by_cases h2 : w ∈ v.toList ∧ w ≠ x1.failsafeEv
    · simp only [if_neg h1, if_pos h2, true_iff]
      exact .inr ⟨Or.inl h2.1, h2.2⟩
    simp only [if_neg h1, if_neg h2]
    refine ⟨Or.inl, fun hw => hw.elim id (fun hgone => ?_)⟩
    obtain ⟨hgone | hgone, hne'⟩ := hgone
    · exact absurd ⟨hgone, hne'⟩ h2
    · exact absurd ⟨hgone, hne'⟩ h1
  have hkept : ∀ w c, s6.event w = some c → s.event w = some c := by
    intro w c hw
    rw [hevent6] at hw
    simp only at hw
    split at hw
    · cases hw
    split at hw
    · cases hw
    · exact hw
  have hshut6 : (if x1.failsafeEv ∈ v.toList then false else x1.shutdownOut) = true ↔
      s.view.shutdownOut z'.disp = true ∧ ∀ w, s.view.failsafe z'.disp = some w → ¬ s.view.out w e := by
    rw [view_shutdownOut hx, ← hshut, hfailsafe]
    have hw : s.view.out x1.failsafeEv e ↔ x1.failsafeEv ∈ v.toList := (hv _).symm
    split
    next hmem' =>
      constructor
      · intro hfalse
        cases hfalse
      · rintro ⟨-, hno⟩
        exact absurd (hw.2 hmem') (hno _ rfl)
    next hmem' =>
      refine ⟨fun ht => ⟨ht, fun w heq ho => hmem' (hw.1 (Option.some.inj heq ▸ ho))⟩, And.left⟩
  have hnewentry : update s6.entry e none = update s.entry e none := by rw [hentry6]
  have hnewsect : update s6.sect z'.disp Section.removed = update s.sect z'.disp .removed := by rw [hsect6]
  have hnodup6 : (s6.sent ++ s6.got).Nodup := by
    rw [hsent6, hgot6]
    exact hnodup
  refine hinv.remove (p := .removed) hz hx ?_ hnodup6 hnewentry htable6 hdisp6 hrefs husers6 hnewsect (Or.inr rfl)
  have hmove := hinv.valid.move (Move.remove e z'.disp z'.key s6.event _ (view_entry hz) hfreed hkept hshut6)
  refine Eq.mp (congrArg Valid ?_) hmove
  apply Eq.symm
  refine view_without s e { x1 with shutdownOut := if x1.failsafeEv ∈ v.toList then false else x1.shutdownOut } z'.disp
    s6.event sent got ?_ ?_ ?_ ?_ ?_ ?_ hmem hfailsafe
  · exact hnewentry
  · exact hdisp6
  · rfl
  · exact hsent6
  · exact hgot6
  · exact hreceived6

end queries

end Bind9.Dispatch
