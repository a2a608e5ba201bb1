import Bind9.DispatchRun

/-! # Responses and cancellations reach their own query

A step of the dispatches keeps the invariant when it does not go wrong in one of three ways (`stepOk`): another dispatch has
taken the id between the search and the insertion, `do_cancel` finds an entry of another dispatch first, or
`dns_dispatch_addresponse2` frees an entry that has got an event.  In every run of such steps an event is where it belongs. -/

namespace Bind9.Dispatch

open List
open Function
open Option hiding all_eq_true attach mem_map
open Bool hiding false_and

set_option linter.unusedSectionVars false

variable {D E S V : Type} [DecidableEq D] [DecidableEq E] [DecidableEq S] [DecidableEq V]

section disps

variable {m : Manager} {s s' : State D E S V} {d : D} {e : E} {x : Disp S V}

theorem Inv.disps (hinv : Inv m s) (hvalid : Valid s'.view) (hentry : s'.entry = s.entry) (htable : s'.table = s.table)
    (hsent : s'.sent = s.sent) (hgot : s'.got = s.got) (hsect : s'.sect = s.sect)
    (hrefs : ∀ d x, s'.disp d = some x → x.refcount = s'.users d + x.requests ∧ x.requests = entriesOf m s d) : Inv m s' := by
  refine ⟨hvalid, ?_, ?_, ?_, ?_, ?_, fun d x hx => ?_, ?_, ?_⟩
  · rw [hsent, hgot]
    exact hinv.nodup
  · rw [hentry]
    exact hinv.items_nodup
  · rw [htable]
    exact hinv.table_nodup
  · rw [htable, hentry]
    exact hinv.linked
  · rw [htable, hentry]
    exact hinv.bucket
  · rw [entriesOf_congr (fun e => by rw [hentry]) htable]
    exact hrefs d x hx
  · rw [hsect]
    exact hinv.adding
  · rw [hsect, hentry]
    exact hinv.added

theorem Inv.disp_of_entry (hinv : Inv m s) {z : Entry D S V} (hz : s.entry e = some z) : ∃ x, s.disp z.disp = some x := by
  obtain ⟨v, hv⟩ := hinv.valid.disp e z.disp z.key (view_entry hz)
  cases hx : s.disp z.disp with
  | none =>
    unfold State.view at hv
    simp only [hx] at hv
    cases hv
  | some x => exact ⟨x, rfl⟩

theorem Inv.entriesOf_eq_zero (hinv : Inv m s) : entriesOf m s d = 0 ↔ ∀ e z, s.entry e = some z → z.disp ≠ d := by
  unfold entriesOf
  rw [countP_eq_zero]
  constructor
  · intro h e z hz hdisp
    apply h e (hinv.mem_linear.2 (by rw [hz]; rfl))
    rw [hz]
    exact beq_iff_eq.2 hdisp
  · intro h e _ hany
    cases hz : s.entry e with
    | none =>
      rw [hz] at hany
      cases hany
    | some z =>
      rw [hz] at hany
      exact h e z hz (beq_iff_eq.1 hany)

theorem Inv.create (hinv : Inv m s) {v : V} (hd : s.disp d = none) (hv : s.event v = none) (hx : x.failsafeEv = v)
    (hshut : x.shutdownOut = false) (hrefs : x.refs = (1, 0)) :
    Inv m { (s.setDisp d x).setEvent v (some .failsafe) with users := update s.users d 1 } := by
  have hnone : s.view.failsafe d = none := by
    unfold State.view
    simp only [hd]
    rfl
  have hzero : entriesOf m s d = 0 := by
    rw [hinv.entriesOf_eq_zero]
    rintro e z hz rfl
    obtain ⟨y, hy⟩ := hinv.disp_of_entry hz
    cases hd.symm.trans hy
  refine hinv.disps ?_ rfl rfl rfl rfl rfl (fun d' y hy => ?_)
  · refine Eq.mp (congrArg Valid ?_) (hinv.valid.move (Move.create d v hnone hv))
    show _ = ((s.setDisp d x).setEvent v (some .failsafe)).view
    rw [view_setEvent, view_setDisp, hx, hshut]
  · have hy : update s.disp d (some x) d' = some y := hy
    show y.refcount = update s.users d 1 d' + y.requests ∧ _
    by_cases hdd : d' = d
    · subst hdd
      rw [update_self] at hy ⊢
      cases hy
      have hrefcount : x.refcount = 1 := congrArg Prod.fst hrefs
      have hrequests : x.requests = 0 := congrArg Prod.snd hrefs
      exact ⟨by omega, by omega⟩
    · rw [update_of_ne hdd] at hy ⊢
      exact hinv.refs d' y hy

theorem Inv.user (hinv : Inv m s) {x' : Disp S V} {n : ℕ} (hx : s.disp d = some x) (hfail : x'.failsafeEv = x.failsafeEv)
    (hshut : x'.shutdownOut = x.shutdownOut) (hrefcount : x'.refcount = n + x.requests) (hrequests : x'.requests = x.requests) :
    Inv m { s.setDisp d x' with users := update s.users d n } := by
  refine hinv.disps ?_ rfl rfl rfl rfl rfl (fun d' y hy => ?_)
  · refine Eq.mp (congrArg Valid ?_) hinv.valid
    show _ = (s.setDisp d x').view
    rw [view_setDisp, hfail, hshut, ← view_failsafe hx, ← view_shutdownOut hx, update_eq_self, update_eq_self]
  · have hy : update s.disp d (some x') d' = some y := hy
    show y.refcount = update s.users d n d' + y.requests ∧ _
    by_cases hdd : d' = d
    · subst hdd
      rw [update_self] at hy ⊢
      cases hy
      rw [hrequests]
      exact ⟨hrefcount, (hinv.refs d' x hx).2⟩
    · rw [update_of_ne hdd] at hy ⊢
      exact hinv.refs d' y hy

theorem Inv.detach (hinv : Inv m s) (hx : s.disp d = some x) (husers : 0 < s.users d) (h : unref s d = .ok s') :
    Inv m { s' with users := update s'.users d (s'.users d - 1) } := by
  obtain ⟨x', hx', h⟩ := bind_eq_ok h
  have hxx : x' = x := Option.some.inj ((deref_ok hx').symm.trans hx)
  subst hxx
  obtain ⟨_, -, h⟩ := bind_eq_ok h
  cases h
  have hrefs := (hinv.refs d x' hx).1
  have hless : x'.refcount - 1 = s.users d - 1 + x'.requests := by omega
  exact hinv.user hx rfl rfl hless rfl

/-- A dispatch without references has no entries. -/
theorem Inv.unused (hinv : Inv m s) (hx : s.disp d = some x) (hzero : x.refcount = 0) :
    x.requests = 0 ∧ ∀ e z, s.entry e = some z → z.disp ≠ d := by
  obtain ⟨hrefs, hrequests⟩ := hinv.refs d x hx
  have hreq : x.requests = 0 := by omega
  exact ⟨hreq, hinv.entriesOf_eq_zero.1 (by omega)⟩

theorem Inv.dispatchFree (hinv : Inv m s) (hx : s.disp d = some x) (hzero : x.refcount = 0)
    (h : dispatchFree s d = .ok s') : Inv m s' := by
  obtain ⟨x', hx', h⟩ := bind_eq_ok h
  have hxx : x' = x := Option.some.inj ((deref_ok hx').symm.trans hx)
  subst hxx
  obtain ⟨_, -, h⟩ := bind_eq_ok h
  obtain ⟨_, -, h⟩ := bind_eq_ok h
  cases h
  have hunused : ∀ e d' key, s.view.entry e = some (d', key) → d' ≠ d := by
    intro e d' key he
    cases hz : s.entry e with
    | none =>
      unfold State.view at he
      simp only [hz] at he
      cases he
    | some z =>
      have hd' : z.disp = d' := congrArg Prod.fst (Option.some.inj ((view_entry hz).symm.trans he))
      rw [← hd']
      exact (hinv.unused hx hzero).2 e z hz
  refine hinv.disps ?_ rfl rfl rfl rfl rfl (fun d' y hy => ?_)
  · refine Eq.mp (congrArg Valid ?_) (hinv.valid.move (Move.destroy d x'.failsafeEv (view_failsafe hx) hunused))
    unfold State.view
    congr 1
    · funext d'
      by_cases hdd : d' = d
      · subst hdd
        simp only [update_self]
        rfl
      · simp only [update_of_ne hdd]
        rfl
    · funext d'
      by_cases hdd : d' = d
      · subst hdd
        simp only [update_self]
        rfl
      · simp only [update_of_ne hdd]
        rfl
  · have hy : update s.disp d none d' = some y := hy
    by_cases hdd : d' = d
    · subst hdd
      rw [update_self] at hy
      cases hy
    · rw [update_of_ne hdd] at hy
      exact hinv.refs d' y hy

end disps

/-! ### Steps that do not go wrong -/

/-- The id is still free, the failsafe event goes to an entry of the dispatch that is canceled, and an entry that is freed again
since no receive can be started has not got an event. -/
def stepOk (m : Manager) (s : State D E S V) : Action D E S V → Bool
  | .cancel d => (s.disp d).all (fun x => x.shuttingDown || cancelOk m s d)
  | .next d e start _ =>
    match s.sect d with
    | .none => true
    | .adding dest id bucket port _ => e.isNone || entrySearch s dest id port bucket == none
    | .added e => (s.disp d).all (fun x => (s.entry e).all (fun z =>
      (!x.startCancels z.dispsocket start || cancelOk m s d) && (!x.startFails z.dispsocket start || !z.itemOut)))
    | .restart k => (s.disp d).all (fun x => !x.startCancels k start || cancelOk m s d)
    | .removed => (s.disp d).all (fun x => !x.shuttingDown && !x.startCancels none start || cancelOk m s d)
  | _ => true

variable {start : Start}

section steps

variable {m : Manager} {s s' : State D E S V} {d : D} {e : E} {x : Disp S V}

theorem Inv.nextStep (hinv : Inv m s) {o : Option E} {closed : Bool} (hx : s.disp d = some x)
    (he : ∀ e, o = some e → s.entry e = none) (hok : stepOk m s (.next d o start closed) = true)
    (h : nextStep m s d o start closed = .ok s') : Inv m s' := by
  unfold Dispatch.nextStep at h
  simp only [stepOk] at hok
  cases hsect : s.sect d with
  | none =>
    rw [hsect] at h
    cases h
    exact hinv
  | adding dest id b port k =>
    rw [hsect] at h hok
    cases o with
    | none => exact hinv.addFail h
    | some e =>
      refine hinv.addInsert (he e rfl) hsect ?_ h
      simpa using hok
  | added e =>
    rw [hsect] at h hok
    obtain ⟨z, hz, hdisp⟩ := hinv.added d e hsect
    simp only [hx, hz, all_some, and_eq_true, or_eq_true, not_eq_true'] at hok
    refine hinv.addEnd hz hdisp hx (fun hc => ?_) (fun hf => ?_) h
    · exact hok.1.resolve_left (by rw [hc]; exact Bool.noConfusion)
    · exact hok.2.resolve_left (by rw [hf]; exact Bool.noConfusion)
  | restart k =>
    rw [hsect] at h hok
    simp only [hx, all_some, or_eq_true, not_eq_true'] at hok
    refine hinv.recvEnd hx (fun hc => ?_) h
    exact hok.resolve_left (by rw [hc]; exact Bool.noConfusion)
  | removed =>
    rw [hsect] at h hok
    simp only [hx, all_some, or_eq_true, and_eq_true, not_eq_true'] at hok
    refine hinv.removeEnd hx (fun hc => ?_) h
    refine hok.resolve_left (fun hno => ?_)
    rw [hno.1, hno.2] at hc
    exact hc.elim Bool.noConfusion Bool.noConfusion

theorem callerHas_of {ev : Option V} (h : (match ev with
    | some v => s.got.contains (v, e)
    | none => s.got.all (fun x => x.2 != e)) = true) : callerHas s e ev := by
  cases ev with
  | some v => exact contains_iff_mem.1 h
  | none =>
    intro x hx
    exact bne_iff_ne.1 (all_eq_true.1 h x hx)

theorem unlocked_disp (h : unlocked s d = true) : ∃ x, s.disp d = some x := by
  unfold unlocked at h
  rw [and_eq_true] at h
  exact isSome_iff_exists.1 h.1

theorem Inv.init (m : Manager) : Inv m (init D E S V) := by
  have hlinear : ∀ d : D, entriesOf m (Dispatch.init D E S V) d = 0 := by
    intro d
    unfold entriesOf
    rw [countP_eq_zero]
    intro e _ hany
    cases hany
  refine ⟨?_, nodup_nil, ?_, fun _ => nodup_nil, ?_, ?_, ?_, ?_, ?_⟩
  · constructor
    all_goals simp [State.view, Dispatch.init]
  all_goals simp [Dispatch.init]

theorem Inv.step (hinv : Inv m s) {a : Action D E S V} (hp : permitted s a = true) (hok : stepOk m s a = true)
    (h : step m s a = .ok s') : Inv m s' := by
  cases a with
  | create d exclusive nolisten socktype loc localport maxrequests v =>
    simp only [permitted, and_eq_true, isNone_iff_eq_none] at hp
    cases h
    exact hinv.create hp.1 hp.2 rfl rfl rfl
  | attach d =>
    simp only [permitted, and_eq_true] at hp
    obtain ⟨x, hx, h⟩ := bind_eq_ok h
    cases h
    have hrefs := (hinv.refs d x (deref_ok hx)).1
    have hmore : x.refcount + 1 = s.users d + 1 + x.requests := by omega
    exact hinv.user (deref_ok hx) rfl rfl hmore rfl
  | detach d =>
    simp only [permitted, and_eq_true, decide_eq_true_eq] at hp
    obtain ⟨x, hx⟩ := unlocked_disp hp.1
    obtain ⟨s1, h1, h⟩ := bind_eq_ok h
    cases h
    exact hinv.detach hx hp.2 h1
  | add d dest random choice v =>
    simp only [permitted, and_eq_true] at hp
    refine hinv.addBegin (fun x hx => ?_) h
    rw [hx] at hp
    exact isNone_iff_eq_none.1 hp.1.2
  | remove e ev =>
    simp only [permitted] at hp
    cases hz : s.entry e with
    | none =>
      rw [hz] at hp
      cases hp
    | some z =>
      rw [hz] at hp
      simp only [and_eq_true] at hp
      obtain ⟨x, hx⟩ := hinv.disp_of_entry hz
      refine hinv.removeresponse hz hx (callerHas_of ?_) h
      exact hp.2
  | cancel d =>
    simp only [permitted, and_eq_true] at hp
    obtain ⟨x, hx⟩ := unlocked_disp hp.1
    simp only [stepOk, hx, all_some, or_eq_true] at hok
    refine hinv.cancel hx (fun hshut => ?_) h
    exact hok.resolve_left (by rw [hshut]; exact Bool.noConfusion)
  | recv d dispsock r v closed =>
    simp only [permitted, and_eq_true] at hp
    refine hinv.udpRecv (fun x hx => ?_) h
    rw [hx] at hp
    exact isNone_iff_eq_none.1 hp.1.2
  | next d o start closed =>
    simp only [permitted, and_eq_true] at hp
    obtain ⟨x, hx⟩ := isSome_iff_exists.1 hp.1.1
    refine hinv.nextStep hx (fun e he => ?_) hok h
    rw [he] at hp
    exact isNone_iff_eq_none.1 hp.2
  | run v e =>
    simp only [permitted, contains_iff_mem] at hp
    cases h
    exact hinv.run hp
  | destroy d =>
    simp only [permitted, and_eq_true] at hp
    obtain ⟨x, hx⟩ := unlocked_disp hp.1
    obtain ⟨-, hdestroy⟩ := hp
    rw [hx] at hdestroy
    simp only [any_some, Disp.destroyOk, and_eq_true, beq_iff_eq] at hdestroy
    exact hinv.dispatchFree hx hdestroy.1.1.1 h

theorem Reach.inv (h : Reach m (fun s a => stepOk m s a = true) s) : Inv m s := by
  induction h with
  | init => exact Inv.init m
  | step _ hp hok hstep ih => exact ih.step hp hok hstep

end steps

/-! ### What was received -/

/-- Nothing is received. -/
structure Kept (s s' : State D E S V) : Prop where
  received : s'.received = s.received
  delivered : s'.delivered = s.delivered

section kept

variable {m : Manager} {s s' : State D E S V} {d : D} {e : E} {x : Disp S V}

theorem Kept.trans {s'' : State D E S V} (h : Kept s s') (h' : Kept s' s'') : Kept s s'' :=
  ⟨h'.received.trans h.received, h'.delivered.trans h.delivered⟩

theorem Same.kept (h : Same s s') : Kept s s' := ⟨h.received, h.delivered⟩

theorem kept_deliver {v : V} {c : Content} (h : deliver s e v c = .ok s') : Kept s s' := by
  obtain ⟨z, -, h⟩ := bind_eq_ok h
  split at h
  · cases h
    exact ⟨rfl, rfl⟩
  · cases h
    exact ⟨rfl, rfl⟩

theorem kept_doCancel (h : doCancel m s d = .ok s') : Kept s s' := by
  obtain ⟨y, -, h⟩ := bind_eq_ok h
  split at h
  · cases h
    exact ⟨rfl, rfl⟩
  split at h
  · cases h
    exact ⟨rfl, rfl⟩
  obtain ⟨z, -, h⟩ := bind_eq_ok h
  cases h
  exact ⟨rfl, rfl⟩

variable {k : Option S}

theorem kept_startrecv {ok : Bool} (h : startrecv m s d k start = .ok (s', ok)) : Kept s s' := by
  obtain ⟨x, hx, -⟩ := bind_eq_ok h
  obtain ⟨-, ⟨-, hsame⟩ | ⟨-, hcancel⟩⟩ := startrecv_spec (deref_ok hx) h
  · exact hsame.kept
  · exact ⟨(kept_doCancel hcancel).received, (kept_doCancel hcancel).delivered⟩

variable {v : Option V}

theorem kept_killOldest (h : killOldest s d v = .ok s') : Kept s s' := by
  obtain ⟨x, hx, h⟩ := bind_eq_ok h
  split at h
  · obtain ⟨k, -, h⟩ := bind_eq_ok h
    obtain ⟨y, -, h⟩ := bind_eq_ok h
    split at h
    · obtain ⟨z, -, h⟩ := bind_eq_ok h
      split at h
      · cases h
        exact ⟨rfl, rfl⟩
      · exact ⟨(kept_deliver h).received, (kept_deliver h).delivered⟩
    · cases h
      exact ⟨rfl, rfl⟩
  · cases h
    exact ⟨rfl, rfl⟩

theorem kept_addBegin {dest : SockAddr} {random : ℕ} {choice : Choice S}
    (h : addBegin m s d dest random choice v = .ok s') : Kept s s' := by
  obtain ⟨x, -, h⟩ := bind_eq_ok h
  split at h
  · cases h
    exact ⟨rfl, rfl⟩
  obtain ⟨s1, h1, h⟩ := bind_eq_ok h
  refine (kept_killOldest h1).trans ?_
  split at h
  · obtain ⟨⟨s2, found⟩, h2, h⟩ := bind_eq_ok h
    refine (same_getDispsocket h2).kept.trans ?_
    simp only at h
    split at h
    · cases h
      exact ⟨rfl, rfl⟩
    cases h
    split
    · exact ⟨rfl, rfl⟩
    · exact ⟨rfl, rfl⟩
  cases h
  split
  · exact ⟨rfl, rfl⟩
  · exact ⟨rfl, rfl⟩

theorem kept_destroySocketOf (h : destroySocketOf s d k = .ok s') : Kept s s' := by
  cases k with
  | none =>
    cases h
    exact ⟨rfl, rfl⟩
  | some k => exact (same_destroyDispsocket h).kept

theorem kept_addInsert {dest : SockAddr} {id b port : ℕ} (h : addInsert s d dest id b port k e = .ok s') : Kept s s' := by
  obtain ⟨x, -, h⟩ := bind_eq_ok h
  obtain ⟨s1, h1, h⟩ := bind_eq_ok h
  cases h
  cases k with
  | none =>
    cases h1
    exact ⟨rfl, rfl⟩
  | some k =>
    obtain ⟨y, -, h1⟩ := bind_eq_ok h1
    cases h1
    exact ⟨rfl, rfl⟩

theorem kept_addUndo (h : addUndo s d e = .ok s') : Kept s s' := by
  obtain ⟨z, -, h⟩ := bind_eq_ok h
  obtain ⟨s1, h1, h⟩ := bind_eq_ok h
  obtain ⟨y, -, h⟩ := bind_eq_ok h
  cases h
  exact ⟨(kept_destroySocketOf h1).received, (kept_destroySocketOf h1).delivered⟩

theorem kept_addEnd (h : addEnd m s d e start = .ok s') : Kept s s' := by
  obtain ⟨z, -, h⟩ := bind_eq_ok h
  obtain ⟨⟨s1, ok⟩, h1, h⟩ := bind_eq_ok h
  refine (kept_startrecv h1).trans ?_
  simp only at h
  split at h
  · obtain ⟨y, -, h⟩ := bind_eq_ok h
    cases h
    exact ⟨rfl, rfl⟩
  obtain ⟨s2, h2, h⟩ := bind_eq_ok h
  cases h
  exact ⟨(kept_addUndo h2).received, (kept_addUndo h2).delivered⟩

variable {closed : Bool}

theorem kept_recvEnd (h : recvEnd m s d k start closed = .ok s') : Kept s s' := by
  obtain ⟨⟨s1, ok⟩, h1, h⟩ := bind_eq_ok h
  refine (kept_startrecv h1).trans ?_
  simp only at h
  split at h
  · obtain ⟨s2, h2, h⟩ := bind_eq_ok h
    cases h
    have hsame := same_deactivateDispsocket h2
    exact ⟨hsame.received, hsame.delivered⟩
  · cases h
    exact ⟨rfl, rfl⟩

theorem kept_removeEnd (h : removeEnd m s d start = .ok s') : Kept s s' := by
  obtain ⟨x, -, h⟩ := bind_eq_ok h
  split at h
  · obtain ⟨s1, h1, h⟩ := bind_eq_ok h
    cases h
    exact ⟨(kept_doCancel h1).received, (kept_doCancel h1).delivered⟩
  obtain ⟨⟨s1, ok⟩, h1, h⟩ := bind_eq_ok h
  cases h
  exact ⟨(kept_startrecv h1).received, (kept_startrecv h1).delivered⟩

theorem kept_nextStep {o : Option E} (h : nextStep m s d o start closed = .ok s') : Kept s s' := by
  unfold nextStep at h
  split at h
  · cases h
    exact ⟨rfl, rfl⟩
  · split at h
    · exact kept_addInsert h
    · obtain ⟨s1, h1, h⟩ := bind_eq_ok h
      cases h
      exact ⟨(kept_destroySocketOf h1).received, (kept_destroySocketOf h1).delivered⟩
  · exact kept_addEnd h
  · exact kept_recvEnd h
  · exact kept_removeEnd h

theorem kept_unref (h : unref s d = .ok s') : Kept s s' := by
  obtain ⟨x, -, h⟩ := bind_eq_ok h
  obtain ⟨_, -, h⟩ := bind_eq_ok h
  cases h
  exact ⟨rfl, rfl⟩

theorem kept_freeDevent {v : V} (h : freeDevent s d v = .ok s') : Kept s s' := by
  obtain ⟨x, -, h⟩ := bind_eq_ok h
  split at h
  · obtain ⟨_, -, h⟩ := bind_eq_ok h
    cases h
    exact ⟨rfl, rfl⟩
  obtain ⟨_, -, h⟩ := bind_eq_ok h
  cases h
  exact ⟨rfl, rfl⟩

theorem kept_freeEvents {l : List V} (h : freeEvents s d l = .ok s') : Kept s s' := by
  induction l generalizing s with
  | nil =>
    cases h
    exact ⟨rfl, rfl⟩
  | cons v l ih =>
    unfold freeEvents at h ih
    rw [foldlM_cons] at h
    obtain ⟨s1, h1, h⟩ := bind_eq_ok h
    exact (kept_freeDevent h1).trans (ih h)

theorem kept_takeEvent {itemOut : Bool} {ev v : Option V} (h : takeEvent s e itemOut ev = .ok (s', v)) : Kept s s' := by
  cases ev with
  | some w =>
    cases h
    exact ⟨rfl, rfl⟩
  | none =>
    unfold takeEvent at h
    simp only at h
    split at h
    · obtain ⟨_, -, h⟩ := bind_eq_ok h
      cases h
      exact ⟨rfl, rfl⟩
    · cases h
      exact ⟨rfl, rfl⟩

theorem kept_removeresponse {ev : Option V} (h : removeresponse s e ev = .ok s') : Kept s s' := by
  obtain ⟨z, -, h⟩ := bind_eq_ok h
  obtain ⟨s1, h1, h⟩ := bind_eq_ok h
  obtain ⟨⟨s3, v⟩, h3, h⟩ := bind_eq_ok h
  obtain ⟨_, -, h⟩ := bind_eq_ok h
  obtain ⟨s4, h4, h⟩ := bind_eq_ok h
  obtain ⟨s5, h5, h⟩ := bind_eq_ok h
  obtain ⟨s6, h6, h⟩ := bind_eq_ok h
  cases h
  obtain ⟨x, hx, h1⟩ := bind_eq_ok h1
  obtain ⟨_, -, h1⟩ := bind_eq_ok h1
  have hrest : Kept s3 s6 :=
    (kept_freeEvents h4).trans ((same_dropSocket h5).kept.trans (kept_freeEvents h6))
  have htake := kept_takeEvent h3
  have hunref := kept_unref h1
  exact ⟨hrest.received.trans (htake.received.trans hunref.received),
    hrest.delivered.trans (htake.delivered.trans hunref.delivered)⟩

theorem udpRecv_delivered {dispsock : Option S} {r : Received} (h : udpRecv m s d dispsock r v closed = .ok s') :
    s'.received = s.received + 1 ∧ (s'.delivered = s.delivered ∨ ∃ e, s'.delivered = s.delivered ++ [(s.received, e)]) := by
  obtain ⟨⟨s1, k⟩, hbegin, h⟩ := bind_eq_ok h
  obtain ⟨target, -, h⟩ := bind_eq_ok h
  have hsame := same_recvBegin hbegin
  rw [← hsame.received, ← hsame.delivered]
  cases target with
  | drop | restart =>
    cases h
    exact ⟨rfl, Or.inl rfl⟩
  | deliver e c =>
    cases v with
    | none =>
      cases h
      exact ⟨rfl, Or.inl rfl⟩
    | some x =>
      obtain ⟨s2, h2, h⟩ := bind_eq_ok h
      cases h
      have hkept := kept_deliver h2
      refine ⟨hkept.received, Or.inr ⟨e, ?_⟩⟩
      exact congrArg (fun l => l ++ [(s1.received, e)]) hkept.delivered

theorem step_delivered {a : Action D E S V} (h : step m s a = .ok s') : Kept s s' ∨ s'.received = s.received + 1 ∧
      (s'.delivered = s.delivered ∨ ∃ e, s'.delivered = s.delivered ++ [(s.received, e)]) := by
  cases a with
  | create d exclusive nolisten socktype loc localport maxrequests v | run v e =>
    cases h
    exact .inl ⟨rfl, rfl⟩
  | attach d =>
    obtain ⟨x, -, h⟩ := bind_eq_ok h
    cases h
    exact .inl ⟨rfl, rfl⟩
  | detach d =>
    obtain ⟨s1, h1, h⟩ := bind_eq_ok h
    cases h
    exact .inl ⟨(kept_unref h1).received, (kept_unref h1).delivered⟩
  | add d dest random choice v => exact .inl (kept_addBegin h)
  | remove e ev => exact .inl (kept_removeresponse h)
  | cancel d =>
    obtain ⟨x, -, h⟩ := bind_eq_ok h
    split at h
    · cases h
      exact .inl ⟨rfl, rfl⟩
    · exact .inl ⟨(kept_doCancel h).received, (kept_doCancel h).delivered⟩
  | recv d dispsock r v closed => exact .inr (udpRecv_delivered h)
  | next d o start closed => exact .inl (kept_nextStep h)
  | destroy d =>
    obtain ⟨x, -, h⟩ := bind_eq_ok h
    obtain ⟨_, -, h⟩ := bind_eq_ok h
    obtain ⟨_, -, h⟩ := bind_eq_ok h
    cases h
    exact .inl ⟨rfl, rfl⟩

/-- The numbers of what went to entries differ. -/
theorem Reach.delivered {ok : State D E S V → Action D E S V → Prop} (h : Reach m ok s) :
    (∀ x ∈ s.delivered, x.1 < s.received) ∧ (s.delivered.map Prod.fst).Nodup := by
  induction h with
  | init => exact ⟨fun x hx => (not_mem_nil hx).elim, nodup_nil⟩
  | step _ _ _ hstep ih =>
    obtain ⟨hlt, hnodup⟩ := ih
    obtain ⟨hreceived, hdelivered⟩ | ⟨hreceived, hdelivered | ⟨e, hdelivered⟩⟩ := step_delivered hstep
    · rw [hreceived, hdelivered]
      exact ⟨hlt, hnodup⟩
    · rw [hreceived, hdelivered]
      exact ⟨fun x hx => Nat.lt_succ_of_lt (hlt x hx), hnodup⟩
    · rw [hreceived, hdelivered]
      refine ⟨fun x hx => ?_, ?_⟩
      · obtain hx | hx := mem_append.1 hx
        · exact Nat.lt_succ_of_lt (hlt x hx)
        · rw [mem_singleton.1 hx]
          exact Nat.lt_succ_self _
      · rw [map_append]
        refine hnodup.append (nodup_singleton _) (disjoint_singleton.2 (fun hmem => ?_))
        obtain ⟨x, hx, hnumber⟩ := mem_map.1 hmem
        exact Nat.lt_irrefl _ (hnumber ▸ hlt x hx)

end kept

/-! ### Freeing -/

section freeing

variable {m : Manager} {s s' : State D E S V} {d : D} {e : E} {x : Disp S V} {z : Entry D S V}

theorem dropSocket_not_assertion (k : Option S) : dropSocket s k ≠ .error .assertion := by
  intro h
  unfold dropSocket at h
  split at h
  next => cases h
  next k =>
    cases hy : s.dispsocket k with
    | none | some y =>
      rw [hy] at h
      cases h

theorem Inv.isSome_event (hinv : Inv m s) {v : V} (h : s.view.out v e ∨ s.view.item v e) : (s.event v).isSome = true := by
  have hne := (hinv.valid.event v).2 (Or.inr (h.imp (fun h => ⟨e, h⟩) (fun h => ⟨e, h⟩)))
  exact isSome_iff_ne_none.2 hne

theorem Inv.removeresponse_total (hinv : Inv m s) {ev : Option V} (hz : s.entry e = some z) (hev : callerHas s e ev) :
    Dispatch.removeresponse s e ev ≠ .error .assertion := by
  intro h
  obtain ⟨x, hx⟩ := hinv.disp_of_entry hz
  have hrefs := hinv.refs z.disp x hx
  have hpos : 0 < x.requests := by
    rw [hrefs.2]
    refine Nat.pos_of_ne_zero (fun hzero => ?_)
    exact hinv.entriesOf_eq_zero.1 hzero e z hz rfl
  obtain ⟨s1, h1⟩ := unrequest_total hx hpos (by omega)
  obtain ⟨x1, rfl, -, hfail, hshut⟩ := unrequest_spec hx h1
  have hout : z.itemOut = true ↔ ∃ v, (v, e) ∈ s.sent ++ s.got := by
    rw [← view_itemOut hz]
    exact hinv.valid.item_out e
  have hspec := takeEvent_spec (s := (s.setDisp z.disp x1).setTable z.bucket ((s.table z.bucket).erase e)) (e := e)
    hinv.nodup (fun v v' => hinv.valid.out_event v v' e) hout hev
  obtain ⟨sent, got, v, htake, -, -, hv⟩ := hspec
  have hrequire : (v.isNone || z.itemOut) = true := by
    cases v with
    | none => rfl
    | some w => exact hout.2 ⟨w, (hv w).1 (mem_singleton.2 rfl)⟩
  have hown := view_failsafe hx
  rw [← hfail] at hown
  -- the one that is out
  have hself : ({ (s.setDisp z.disp x1).setTable z.bucket ((s.table z.bucket).erase e) with
      sent := sent, got := got } : State D E S V).disp z.disp = some x1 := update_self ..
  have hnodup : v.toList.Nodup := by
    cases v with
    | none => exact nodup_nil
    | some w => exact nodup_singleton w
  have hshutdown : x1.failsafeEv ∈ v.toList → x1.shutdownOut = true := by
    intro hmem
    rw [hshut, ← view_shutdownOut hx]
    exact (hinv.valid.failsafe_out _ _ hown).2 ⟨e, (hv _).1 hmem⟩
  obtain ⟨s4, h4⟩ := freeEvents_total hself hnodup (fun w hw _ => hinv.isSome_event (Or.inl ((hv w).1 hw))) hshutdown
  have hs4 := freeEvents_spec hself h4
  have hremove : Dispatch.removeresponse s e ev = (do
      let s ← dropSocket s4 z.dispsocket
      let s ← freeEvents s z.disp z.items
      return { s with entry := update s.entry e none }.setSect z.disp .removed) := by
    unfold Dispatch.removeresponse
    rw [hz]
    simp only [deref, ok_then, h1]
    have htable : (s.setDisp z.disp x1).table = s.table := rfl
    rw [htable, htake]
    simp only [ok_then, hrequire, require_true, h4]
  rw [hremove] at h
  -- those that are queued
  cases h5 : dropSocket s4 z.dispsocket with
  | error stop =>
    rw [h5] at h
    have hstop : stop = .assertion := Except.error.inj h
    exact dropSocket_not_assertion z.dispsocket (hstop ▸ h5)
  | ok s5 =>
    obtain ⟨f, hs5⟩ := dropSocket_spec h5
    have hself5 : s5.disp z.disp =
        some { x1 with shutdownOut := if x1.failsafeEv ∈ v.toList then false else x1.shutdownOut } := by
      rw [hs5, hs4]
      exact update_self ..
    have hevent5 : ∀ w ∈ z.items, w ≠ x1.failsafeEv → (s5.event w).isSome = true := by
      intro w hw _
      have hitem : s.view.item w e := (view_item hz).2 hw
      have hnot : w ∉ v.toList := fun hmem => hinv.valid.item_not_out w e e hitem ((hv w).1 hmem)
      rw [hs5, hs4]
      simp only [hnot, false_and, if_false]
      exact hinv.isSome_event (Or.inr hitem)
    have hnotitem : x1.failsafeEv ∉ z.items :=
      fun hmem => hinv.valid.failsafe_item _ _ e hown ((view_item hz).2 hmem)
    obtain ⟨s6, h6⟩ := freeEvents_total hself5 (hinv.items_nodup e z hz) hevent5 (fun hmem => absurd hmem hnotitem)
    rw [h5] at h
    simp only [ok_then, h6] at h
    cases h

theorem Inv.dispatchFree_total (hinv : Inv m s) (hx : s.disp d = some x) (hok : x.destroyOk = true) :
    ∃ s', Dispatch.dispatchFree s d = .ok s' := by
  unfold Disp.destroyOk at hok
  simp only [and_eq_true, beq_iff_eq] at hok
  have hrequests := (hinv.unused hx hok.1.1.1).1
  have hevent : (s.event x.failsafeEv).isSome = true := by
    have hfail : s.event x.failsafeEv = some .failsafe := hinv.valid.failsafe_event _ d (view_failsafe hx)
    rw [hfail]
    rfl
  unfold Dispatch.dispatchFree
  rw [hx]
  simp only [deref, ok_then, hrequests, hok.1.1.2, hok.1.2, hevent]
  exact ⟨_, rfl⟩

end freeing

/-! ### Runs -/

/-- The event is with the entry: out, or queued there. -/
def State.holds (s : State D E S V) (v : V) (e : E) : Prop := (v, e) ∈ s.sent ++ s.got ∨ ∃ z, s.entry e = some z ∧ v ∈ z.items

/-- Responses and cancellations are with their own query. -/
structure Routed (m : Manager) (s : State D E S V) : Prop where
  table : ∀ e, e ∈ linear m s ↔ (s.entry e).isSome = true
  keys : ∀ e e' z z', s.entry e = some z → s.entry e' = some z' → z.key = z'.key → e = e'
  packet : ∀ v e n p, s.holds v e → s.event v = some (.packet n p) → ∃ z, s.entry e = some z ∧ z.key.accepts p
  once : (s.delivered.map Prod.fst).Nodup
  number : ∀ v v' n p p', s.event v = some (.packet n p) → s.event v' = some (.packet n p') → v = v'
  entry : ∀ v e e', s.holds v e → s.holds v e' → e = e'
  out : (s.sent ++ s.got).Nodup ∧ ∀ v v' e, (v, e) ∈ s.sent ++ s.got → (v', e) ∈ s.sent ++ s.got → v = v'
  failsafe : ∀ d x e, s.disp d = some x → s.holds x.failsafeEv e → ∃ z, s.entry e = some z ∧ z.disp = d
  failsafe_inj : ∀ d d' x x', s.disp d = some x → s.disp d' = some x' → x.failsafeEv = x'.failsafeEv → d = d'
  /-- An event outside the pool is the one of a dispatch or with an entry. -/
  event : ∀ v, (s.event v).isSome = true ↔ (∃ d x, s.disp d = some x ∧ x.failsafeEv = v) ∨ ∃ e, s.holds v e

section runs

variable {m : Manager} {s : State D E S V}

theorem Inv.holds_live (hinv : Inv m s) {v : V} {e : E} (h : s.holds v e) : ∃ z, s.entry e = some z := by
  obtain hout | ⟨z, hz, -⟩ := h
  · obtain ⟨d, k, hk⟩ := hinv.valid.out_live v e hout
    cases hz : s.entry e with
    | none =>
      unfold State.view at hk
      simp only [hz] at hk
      cases hk
    | some z => exact ⟨z, rfl⟩
  · exact ⟨z, hz⟩

theorem Inv.routed (hinv : Inv m s) (honce : (s.delivered.map Prod.fst).Nodup) : Routed m s := by
  refine ⟨fun e => hinv.mem_linear, fun e e' z z' hz hz' hkey => ?_, fun v e n p hh hc => ?_, honce, hinv.valid.number_inj,
    fun v e e' hh hh' => ?_, ⟨hinv.nodup, fun v v' e => hinv.valid.out_event v v' e⟩, fun d x e hx hh => ?_,
    fun d d' x x' hx hx' hfail => ?_, fun v => ?_⟩
  · have hk' := view_entry hz'
    rw [← hkey] at hk'
    exact hinv.valid.key e e' z.disp z'.disp z.key (view_entry hz) hk'
  · obtain ⟨z, hz⟩ := hinv.holds_live hh
    exact ⟨z, hz, hinv.valid.packet v e n p z.disp z.key hh hc (view_entry hz)⟩
  · obtain hout | hitem := hh
    · obtain hout' | hitem' := hh'
      · exact hinv.valid.out_entry v e e' hout hout'
      · exact absurd hout (hinv.valid.item_not_out v e' e hitem')
    · obtain hout' | hitem' := hh'
      · exact absurd hout' (hinv.valid.item_not_out v e e' hitem)
      · exact hinv.valid.item_entry v e e' hitem hitem'
  · obtain hout | hitem := hh
    · obtain ⟨k, hk⟩ := hinv.valid.failsafe_own _ d e (view_failsafe hx) hout
      obtain ⟨z, hz⟩ := hinv.holds_live (Or.inl hout)
      exact ⟨z, hz, congrArg Prod.fst (Option.some.inj ((view_entry hz).symm.trans hk))⟩
    · exact absurd hitem (hinv.valid.failsafe_item _ d e (view_failsafe hx))
  · have hx' := view_failsafe hx'
    rw [← hfail] at hx'
    exact hinv.valid.failsafe_inj _ d d' (view_failsafe hx) hx'
  · rw [isSome_iff_ne_none]
    refine (hinv.valid.event v).trans (or_congr ⟨?_, ?_⟩ exists_or.symm)
    · rintro ⟨d, hd⟩
      obtain ⟨x, hx, hfail⟩ := map_eq_some_iff.1 hd
      exact ⟨d, x, hx, hfail⟩
    · rintro ⟨d, x, hx, rfl⟩
      exact ⟨d, view_failsafe hx⟩

/-- In every run of steps that do not go wrong, responses and cancellations are with their own query, and what
`dns_dispatch_removeresponse` and `dispatch_free` free is there to be freed. -/
theorem responses_reach_own_query (h : Reach m (fun s a => stepOk m s a = true) s) : Routed m s ∧
    (∀ e ev, permitted s (.remove e ev) = true → step m s (.remove e ev) ≠ .error .assertion) ∧
    ∀ d, permitted s (.destroy d) = true → ∃ s', step m s (.destroy d) = .ok s' := by
  have hinv := h.inv
  refine ⟨hinv.routed h.delivered.2, fun e ev hp => ?_, fun d hp => ?_⟩
  · simp only [permitted] at hp
    cases hz : s.entry e with
    | none =>
      rw [hz] at hp
      cases hp
    | some z =>
      rw [hz] at hp
      simp only [and_eq_true] at hp
      exact hinv.removeresponse_total hz (callerHas_of hp.2)
  · simp only [permitted, and_eq_true] at hp
    obtain ⟨x, hx⟩ := unlocked_disp hp.1
    obtain ⟨-, hdestroy⟩ := hp
    rw [hx] at hdestroy
    exact hinv.dispatchFree_total hx hdestroy

end runs

/-- The state behind steps that are permitted and pass a test. -/
def trace (m : Manager) (check : State D E S V → Action D E S V → Bool) (s : State D E S V) :
    List (Action D E S V) → Option (State D E S V)
  | [] => some s
  | a :: rest =>
    if permitted s a && check s a then
      match step m s a with
      | .ok s' => trace m check s' rest
      | .error _ => none
    else none

theorem Reach.trace {m : Manager} {ok : State D E S V → Action D E S V → Prop} {check : State D E S V → Action D E S V → Bool}
    (hcheck : ∀ s a, check s a = true → ok s a) (l : List (Action D E S V)) :
    ∀ {s s' : State D E S V}, Reach m ok s → trace m check s l = some s' → Reach m ok s' := by
  induction l with
  | nil =>
    intro s s' h htrace
    cases htrace
    exact h
  | cons a rest ih =>
    intro s s' h htrace
    unfold Dispatch.trace at htrace
    split at htrace
    next hp =>
      rw [and_eq_true] at hp
      split at htrace
      next s1 hstep => exact ih (h.step hp.1 (hcheck s a hp.2) hstep) htrace
      · cases htrace
    · cases htrace

def oneBucket : Manager := ⟨1, 1, fun _ => 0, fun _ => false, Nat.one_pos⟩

def peer : SockAddr := ⟨false, 1, 0, 53⟩

/-- The id is 5, and the packet is a response. -/
def answer : Packet := ⟨peer, [0, 5, 128, 0, 0, 0, 0, 0, 0, 0, 0, 0]⟩

/-- The same with another id. -/
def answer6 : Packet := ⟨peer, [0, 6, 128, 0, 0, 0, 0, 0, 0, 0, 0, 0]⟩

/-- Two dispatches on one port: a response that comes to the first is for a query of the second, a query of the first is
removed, and the second is canceled while one of its queries waits. -/
theorem responses_reach_own_query_shared : ∃ s : State (Fin 2) (Fin 3) (Fin 1) (Fin 5),
    Reach oneBucket (fun s a => stepOk oneBucket s a = true) s ∧ s.sent = [(4, 2)] ∧ s.got = [(2, 1)] ∧
    s.delivered = [(0, 0), (1, 1)] ∧ s.entry 0 = none ∧ Routed oneBucket s ∧
    step oneBucket s (.remove 1 (some 2)) ≠ .error .assertion := by
  have hrun : (trace oneBucket (stepOk oneBucket) (init (Fin 2) (Fin 3) (Fin 1) (Fin 5))
      [.create 0 false false .udp ⟨false, 0, 0, 7⟩ 7 10 0, .create 1 false false .udp ⟨false, 0, 0, 7⟩ 7 10 4,
        .add 0 peer 5 .unavailable none, .next 0 (some 0) .started false, .next 0 none .started false,
        .add 1 peer 6 .unavailable none, .next 1 (some 1) .started false, .next 1 none .started false,
        .recv 0 none ⟨false, .success, answer⟩ (some 1) false, .next 0 none .started false,
        .recv 0 none ⟨false, .success, answer6⟩ (some 2) false, .next 0 none .started false,
        .run 1 0, .remove 0 (some 1), .next 0 none .started false,
        .add 1 peer 8 .unavailable none, .next 1 (some 2) .started false, .next 1 none .started false,
        .cancel 1, .run 2 1]).isSome = true := by decide
  obtain ⟨s, hs⟩ := isSome_iff_exists.1 hrun
  have hreach : Reach oneBucket (fun s a => stepOk oneBucket s a = true) s := Reach.trace (fun _ _ h => h) _ (Reach.init) hs
  obtain ⟨hrouted, hremove, -⟩ := responses_reach_own_query hreach
  have hstate : s.sent = [(4, 2)] ∧ s.got = [(2, 1)] ∧ s.delivered = [(0, 0), (1, 1)] ∧ s.entry 0 = none ∧
      permitted s (.remove 1 (some 2)) = true := by
    cases hs
    decide
  obtain ⟨hsent, hgot, hdelivered, hgone, hmay⟩ := hstate
  exact ⟨s, hreach, hsent, hgot, hdelivered, hgone, hrouted, hremove 1 (some 2) hmay⟩

/-- `dns_dispatch_cancel` of one dispatch sends its event to an entry of another one; and two dispatches on one port that look
for an id at the same time get the same one. -/
theorem failsafe_of_other_dispatch : (∃ s : State (Fin 2) (Fin 2) (Fin 1) (Fin 4), Reach oneBucket (fun _ _ => True) s ∧
      (s.disp 0).map Disp.failsafeEv = some 0 ∧ (0, 0) ∈ s.sent ∧ (s.entry 0).map Entry.disp = some 1 ∧ ¬ Routed oneBucket s) ∧
    ∃ s : State (Fin 2) (Fin 2) (Fin 1) (Fin 4), Reach oneBucket (fun _ _ => True) s ∧
      s.table 0 = [0, 1] ∧ (s.entry 0).map Entry.key = (s.entry 1).map Entry.key ∧ (s.entry 0).isSome = true ∧
      ¬ Routed oneBucket s := by
  constructor
  · have hrun : (trace oneBucket (fun _ _ => true) (init (Fin 2) (Fin 2) (Fin 1) (Fin 4))
        [.create 0 false false .udp ⟨false, 0, 0, 7⟩ 7 10 0, .create 1 false false .udp ⟨false, 0, 0, 8⟩ 8 10 1,
          .add 1 peer 5 .unavailable none, .next 1 (some 0) .started false, .next 1 none .started false,
          .cancel 0]).isSome = true := by decide
    obtain ⟨s, hs⟩ := isSome_iff_exists.1 hrun
    have hreach : Reach oneBucket (fun _ _ => True) s := Reach.trace (fun _ _ _ => trivial) _ (Reach.init) hs
    have hfail : (s.disp 0).map Disp.failsafeEv = some 0 := by
      cases hs
      decide
    have hsent : (0, 0) ∈ s.sent := by
      cases hs
      decide
    have hdisp : (s.entry 0).map Entry.disp = some 1 := by
      cases hs
      decide
    refine ⟨s, hreach, hfail, hsent, hdisp, fun hrouted => ?_⟩
    obtain ⟨x, hx, hxfail⟩ := map_eq_some_iff.1 hfail
    obtain ⟨z, hz, hzdisp⟩ := hrouted.failsafe 0 x 0 hx (Or.inl (mem_append_left _ (hxfail ▸ hsent)))
    rw [hz] at hdisp
    exact absurd (hzdisp.symm.trans (Option.some.inj hdisp)) (by decide)
  · have hrun : (trace oneBucket (fun _ _ => true) (init (Fin 2) (Fin 2) (Fin 1) (Fin 4))
        [.create 0 false false .udp ⟨false, 0, 0, 7⟩ 7 10 0, .create 1 false false .udp ⟨false, 0, 0, 7⟩ 7 10 1,
          .add 0 peer 5 .unavailable none, .add 1 peer 5 .unavailable none, .next 0 (some 0) .started false,
          .next 1 (some 1) .started false]).isSome = true := by decide
    obtain ⟨s, hs⟩ := isSome_iff_exists.1 hrun
    have hreach : Reach oneBucket (fun _ _ => True) s := Reach.trace (fun _ _ _ => trivial) _ (Reach.init) hs
    have htable : s.table 0 = [0, 1] := by
      cases hs
      decide
    have hkey : (s.entry 0).map Entry.key = (s.entry 1).map Entry.key := by
      cases hs
      decide
    have hsome : (s.entry 0).isSome = true := by
      cases hs
      decide
    refine ⟨s, hreach, htable, hkey, hsome, fun hrouted => ?_⟩
    obtain ⟨z, hz⟩ := isSome_iff_exists.1 hsome
    obtain ⟨z', hz', hzz⟩ := map_some hkey hz
    exact absurd (hrouted.keys 0 1 z z' hz hz' hzz) (by decide)

end Bind9.Dispatch
