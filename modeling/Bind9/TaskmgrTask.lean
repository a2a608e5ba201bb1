import Bind9.Taskmgr

/-! # What the sections do to a task

`Task.Ok` is the invariant of one task.  For each function under the lock of a task there is one lemma that says what it
does to the state and the references, that it keeps the invariant, and one that says when no assertion fails. -/

namespace Bind9.Taskmgr

open List

/-- The queue of an idle task is empty, a task that is done has no references, and the history is in order: what was put
into the queue was executed in this order, is still there, or was purged, each once; the events for the shutdown are put
there once, last registered first. -/
structure Task.Ok (x : Task) : Prop where
  idle : x.state = .idle → x.events = []
  done : x.state = .done → x.references = 0 ∧ x.events = [] ∧ x.shuttingDown = true
  shut : x.shuttingDown = true → x.onShutdown = []
  order : (x.executed ++ x.events).Sublist x.posted
  all : x.posted.Perm (x.executed ++ x.events ++ x.dropped)
  before : x.shuttingDown = false → x.onShutdown = x.registered ∧ x.posted = x.sent
  behind : x.shuttingDown = true → ∃ a b, x.sent = a ++ b ∧ x.posted = a ++ x.registered.reverse ++ b

theorem Task.free_ok : Task.free.Ok :=
  ⟨fun _ => rfl, fun _ => ⟨rfl, rfl, rfl⟩, fun _ => rfl, Sublist.refl _, Perm.refl _, fun h => (by cases h),
    fun _ => ⟨[], [], rfl, rfl⟩⟩

theorem Task.new_ok (quantum : ℕ) : (Task.new quantum).Ok :=
  ⟨fun _ => rfl, fun h => (by cases h), fun _ => rfl, Sublist.refl _, Perm.refl _, fun _ => ⟨rfl, rfl⟩,
    fun h => (by cases h)⟩

variable {x x' : Task}

/-- Putting events into the queue. -/
theorem Task.Ok.perm_post (h : x.Ok) (l : List Event) :
    (x.posted ++ l).Perm (x.executed ++ (x.events ++ l) ++ x.dropped) := by
  have h1 : (x.posted ++ l).Perm (x.executed ++ x.events ++ x.dropped ++ l) := h.all.append_right l
  have h2 : (x.executed ++ x.events ++ (x.dropped ++ l)).Perm (x.executed ++ x.events ++ (l ++ x.dropped)) :=
    Perm.append_left _ perm_append_comm
  rw [append_assoc] at h1
  refine h1.trans (h2.trans (Perm.of_eq ?_))
  simp only [append_assoc]

theorem Task.Ok.order_post (h : x.Ok) (l : List Event) : (x.executed ++ (x.events ++ l)).Sublist (x.posted ++ l) := by
  rw [← append_assoc]
  exact h.order.append (Sublist.refl l)

/-- Changing the state, the references, the privilege. -/
theorem Task.Ok.set (h : x.Ok) {state : TaskState} {references : ℕ} {privileged : Bool}
    (hidle : state = .idle → x.events = []) (hdone : state = .done → references = 0 ∧ x.events = [] ∧ x.shuttingDown = true) :
    ({ x with state := state, references := references, privileged := privileged } : Task).Ok :=
  ⟨hidle, hdone, h.shut, h.order, h.all, h.before, h.behind⟩

/-! ### The functions -/

/-- Whether the task was idle, and is to be put on the ready queue. -/
abbrev Woken (x x' : Task) (wasIdle : Bool) : Prop := if wasIdle then x.state = .idle ∧ x'.state = .ready else x'.state = x.state

variable {wasIdle : Bool}

theorem taskShutdown_spec (h : taskShutdown x = .ok (x', wasIdle)) :
    x'.references = x.references ∧ x'.privileged = x.privileged ∧ x'.shuttingDown = true ∧ Woken x x' wasIdle ∧ (x.Ok → x'.Ok) := by
  unfold taskShutdown at h
  split at h
  next hshut =>
    cases h
    exact ⟨rfl, rfl, hshut, rfl, id⟩
  next hshut =>
    rw [Bool.not_eq_true] at hshut
    obtain ⟨_, hempty, h⟩ := bind_eq_ok h
    obtain ⟨_, hstate, h⟩ := bind_eq_ok h
    cases h
    refine ⟨rfl, rfl, rfl, ?_, fun hok => ?_⟩
    · cases hidle : x.state == .idle with
      | true => exact ⟨beq_iff_eq.1 hidle, rfl⟩
      | false => rfl
    · obtain ⟨hreg, hsent⟩ := hok.before hshut
      have hst := require_ok hstate
      refine ⟨fun hi => ?_, fun hd => ?_, fun _ => rfl, hok.order_post _, hok.perm_post _, fun hs => (by cases hs),
        fun _ => ⟨x.sent, [], (append_nil _).symm, ?_⟩⟩
      · dsimp only at hi
        rw [hi] at hst
        cases hst
      · dsimp only at hd
        rw [hd] at hst
        cases hst
      · rw [append_nil, ← hsent, ← hreg]

theorem taskShutdown_total (h : x.Ok) : ∃ r, taskShutdown x = .ok r := by
  unfold taskShutdown
  split
  · exact ⟨_, rfl⟩
  next hshut =>
    cases hst : x.state with
    | idle =>
      rw [h.idle hst]
      exact ⟨_, rfl⟩
    | ready => exact ⟨_, rfl⟩
    | running => exact ⟨_, rfl⟩
    | done => exact absurd (h.done hst).2.2 hshut

theorem taskDetach_spec (h : taskDetach x = .ok (x', wasIdle)) :
    x'.references + 1 = x.references ∧ x'.privileged = x.privileged ∧ Woken x x' wasIdle ∧ (x.Ok → x'.Ok) := by
  unfold taskDetach at h
  obtain ⟨_, hpos, h⟩ := bind_eq_ok h
  have hpos' : 0 < x.references := of_decide_eq_true (require_ok hpos)
  have hrefs : x.references - 1 + 1 = x.references := Nat.sub_add_cancel hpos'
  have hdone : x.Ok → x.state ≠ .done := by
    intro hok hd
    have hzero := (hok.done hd).1
    omega
  simp only at h
  split at h
  next hidle =>
    obtain ⟨_, -, h⟩ := bind_eq_ok h
    cases h
    exact ⟨hrefs, rfl, ⟨hidle.2, rfl⟩, fun hok => hok.set (fun hi => by cases hi) (fun hd => by cases hd)⟩
  · cases h
    exact ⟨hrefs, rfl, rfl, fun hok => hok.set hok.idle (fun hd => absurd hd (hdone hok))⟩

theorem taskDetach_total (h : x.Ok) (hrefs : 0 < x.references) : ∃ r, taskDetach x = .ok r := by
  unfold taskDetach
  rw [require_true (decide_eq_true hrefs), ok_then]
  simp only
  split
  next hidle =>
    rw [h.idle hidle.2]
    exact ⟨_, rfl⟩
  · exact ⟨_, rfl⟩

variable {event : Event}

theorem taskSend_spec (h : taskSend event x = .ok (x', wasIdle)) :
    x'.references = x.references ∧ x'.privileged = x.privileged ∧ Woken x x' wasIdle ∧ (x.Ok → x'.Ok) := by
  unfold taskSend at h
  obtain ⟨_, -, h⟩ := bind_eq_ok h
  obtain ⟨_, -, h⟩ := bind_eq_ok h
  obtain ⟨_, -, h⟩ := bind_eq_ok h
  obtain ⟨_, hstate, h⟩ := bind_eq_ok h
  cases h
  have hst := require_ok hstate
  refine ⟨rfl, rfl, ?_, fun hok => ?_⟩
  · cases hidle : x.state == .idle with
    | true => exact ⟨beq_iff_eq.1 hidle, rfl⟩
    | false => rfl
  · refine ⟨fun hi => ?_, fun hd => ?_, hok.shut, hok.order_post _, hok.perm_post _, fun hs => ?_, fun hs => ?_⟩
    · dsimp only at hi
      rw [hi] at hst
      cases hst
    · dsimp only at hd
      rw [hd] at hst
      cases hst
    · obtain ⟨hreg, hsent⟩ := hok.before hs
      exact ⟨hreg, congrArg (· ++ [event]) hsent⟩
    · obtain ⟨a, b, hsent, hposted⟩ := hok.behind hs
      refine ⟨a, b ++ [event], ?_, ?_⟩
      · rw [hsent, append_assoc]
      · rw [hposted]
        simp only [append_assoc]

theorem taskSend_total (h : x.Ok) (hrefs : 0 < x.references) (hevent : 0 < event.evType) : ∃ r, taskSend event x = .ok r := by
  unfold taskSend
  rw [require_true (decide_eq_true hevent), ok_then]
  cases hst : x.state with
  | idle =>
    rw [h.idle hst]
    exact ⟨_, rfl⟩
  | ready => exact ⟨_, rfl⟩
  | running => exact ⟨_, rfl⟩
  | done =>
    have hzero := (h.done hst).1
    omega

theorem taskSendanddetach_spec (h : taskSendanddetach event x = .ok (x', wasIdle)) :
    x'.references + 1 = x.references ∧ x'.privileged = x.privileged ∧ Woken x x' wasIdle ∧ (x.Ok → x'.Ok) := by
  unfold taskSendanddetach at h
  obtain ⟨⟨x1, idle1⟩, hsend, h⟩ := bind_eq_ok h
  obtain ⟨⟨x2, idle2⟩, hdetach, h⟩ := bind_eq_ok h
  obtain ⟨_, hinsist, h⟩ := bind_eq_ok h
  cases h
  obtain ⟨hrefs1, hpriv1, hstate1, hok1⟩ := taskSend_spec hsend
  obtain ⟨hrefs2, hpriv2, hstate2, hok2⟩ := taskDetach_spec hdetach
  refine ⟨hrefs2.trans hrefs1, hpriv2.trans hpriv1, ?_, fun hok => hok2 (hok1 hok)⟩
  cases idle1 with
  | true =>
    cases idle2 with
    | true => cases require_ok hinsist
    | false => exact ⟨hstate1.1, hstate2.trans hstate1.2⟩
  | false =>
    cases idle2 with
    | true => exact ⟨hstate1 ▸ hstate2.1, hstate2.2⟩
    | false => exact hstate2.trans hstate1

theorem taskSendanddetach_total (h : x.Ok) (hrefs : 0 < x.references) (hevent : 0 < event.evType) :
    ∃ r, taskSendanddetach event x = .ok r := by
  obtain ⟨⟨x1, idle1⟩, hsend⟩ := taskSend_total h hrefs hevent
  obtain ⟨hrefs1, -, hstate1, hok1⟩ := taskSend_spec hsend
  obtain ⟨⟨x2, idle2⟩, hdetach⟩ := taskDetach_total (hok1 h) (hrefs1.symm ▸ hrefs)
  obtain ⟨-, -, hstate2, -⟩ := taskDetach_spec hdetach
  unfold taskSendanddetach
  simp only [hsend, hdetach, ok_then]
  -- when the send found the task idle the detach does not
  have hnot : (!(idle1 && idle2)) = true := by
    cases idle1 with
    | false => rfl
    | true =>
      cases idle2 with
      | false => rfl
      | true =>
        have hboth := hstate1.2.symm.trans hstate2.1
        cases hboth
  rw [require_true hnot]
  exact ⟨_, rfl⟩

theorem Task.Ok.remove {x : Task} (h : x.Ok) (p : Event → Bool) : (x.remove p).Ok := by
  refine ⟨fun hi => ?_, fun hd => ?_, h.shut, ?_, ?_, h.before, h.behind⟩
  · show x.events.filter _ = []
    rw [h.idle hi]
    rfl
  · obtain ⟨hrefs, hempty, hshut⟩ := h.done hd
    refine ⟨hrefs, ?_, hshut⟩
    show x.events.filter _ = []
    rw [hempty]
    rfl
  · exact ((Sublist.refl x.executed).append filter_sublist).trans h.order
  · have hsplit : x.events.Perm (x.events.filter (fun e => !p e) ++ x.events.filter p) :=
      (filter_append_perm (fun e => !p e) x.events).symm.trans (Perm.of_eq (by simp))
    refine h.all.trans (((hsplit.append_left x.executed).append_right x.dropped).trans ?_)
    rw [append_assoc, append_assoc, append_assoc]
    exact Perm.append_left _ (Perm.append_left _ perm_append_comm)

theorem Task.Ok.purgeevent (h : x.Ok) (event : Event) : (taskPurgeevent event x).Ok := by
  unfold taskPurgeevent
  split
  next hmem =>
    refine ⟨fun hi => ?_, fun hd => ?_, h.shut, ?_, ?_, h.before, h.behind⟩
    · rw [h.idle hi]
      rfl
    · obtain ⟨hrefs, hempty, hshut⟩ := h.done hd
      refine ⟨hrefs, ?_, hshut⟩
      rw [hempty]
      rfl
    · exact ((Sublist.refl x.executed).append erase_sublist).trans h.order
    · have hsplit : x.events.Perm (x.events.erase event ++ [event]) :=
        (perm_cons_erase hmem.1).trans (perm_append_singleton event _).symm
      refine h.all.trans (((hsplit.append_left x.executed).append_right x.dropped).trans ?_)
      rw [append_assoc, append_assoc, append_assoc]
      exact Perm.append_left _ (Perm.append_left _ perm_append_comm)
  · exact h

theorem taskPurgeevent_spec (event : Event) (x : Task) : (taskPurgeevent event x).references = x.references ∧
    (taskPurgeevent event x).privileged = x.privileged ∧ (taskPurgeevent event x).state = x.state := by
  unfold taskPurgeevent
  split <;> exact ⟨rfl, rfl, rfl⟩

theorem Task.Ok.onshutdown (h : x.Ok) (event : Event) : (taskOnshutdown event x).Ok := by
  unfold taskOnshutdown
  split
  · exact h
  next hshut =>
    rw [Bool.not_eq_true] at hshut
    obtain ⟨hreg, hsent⟩ := h.before hshut
    refine ⟨h.idle, h.done, fun hs => ?_, h.order, h.all, fun _ => ⟨congrArg (· ++ [event]) hreg, hsent⟩, fun hs => ?_⟩
    · rw [hshut] at hs
      cases hs
    · rw [hshut] at hs
      cases hs

theorem taskOnshutdown_spec (event : Event) (x : Task) : (taskOnshutdown event x).references = x.references ∧
    (taskOnshutdown event x).privileged = x.privileged ∧ (taskOnshutdown event x).state = x.state := by
  unfold taskOnshutdown
  split <;> exact ⟨rfl, rfl, rfl⟩

/-! ### The worker -/

/-- The state of a task after a section of a worker. -/
def Next.state : Next → TaskState
  | .act => .running
  | .idle => .idle
  | .requeue => .ready
  | .finished => .done

theorem Task.Ok.take (h : x.Ok) (hstate : x.state = .running) : x.take.Ok := by
  have hevents : x.executed ++ x.events.head?.toList ++ x.events.tail = x.executed ++ x.events := by
    cases x.events with
    | nil => simp
    | cons e l => simp
  refine ⟨fun hi => ?_, fun hd => ?_, h.shut, ?_, ?_, h.before, h.behind⟩
  · cases hstate.symm.trans hi
  · cases hstate.symm.trans hd
  · show (x.executed ++ x.events.head?.toList ++ x.events.tail).Sublist x.posted
    rw [hevents]
    exact h.order
  · show x.posted.Perm (x.executed ++ x.events.head?.toList ++ x.events.tail ++ x.dropped)
    rw [hevents]
    exact h.all

theorem taskOrphan_spec (h : taskOrphan x = .ok x') (hrun : x.state = .running) :
    x'.references = x.references ∧ x'.privileged = x.privileged ∧ x'.state = .running ∧ (x.Ok → x'.Ok) := by
  unfold taskOrphan at h
  split at h
  · obtain ⟨⟨y, wasIdle⟩, hshut, h⟩ := bind_eq_ok h
    obtain ⟨_, hinsist, h⟩ := bind_eq_ok h
    cases h
    obtain ⟨hrefs, hpriv, -, hstate, hok⟩ := taskShutdown_spec hshut
    cases wasIdle with
    | true => cases require_ok hinsist
    | false => exact ⟨hrefs, hpriv, hstate.trans hrun, hok⟩
  · cases h
    exact ⟨rfl, rfl, hrun, id⟩

theorem taskOrphan_total (h : x.Ok) (hrun : x.state = .running) : ∃ r, taskOrphan x = .ok r := by
  unfold taskOrphan
  split
  · obtain ⟨⟨y, wasIdle⟩, hshut⟩ := taskShutdown_total h
    obtain ⟨-, -, -, hstate, -⟩ := taskShutdown_spec hshut
    rw [hshut]
    cases wasIdle with
    | true => cases hrun.symm.trans hstate.1
    | false => exact ⟨_, rfl⟩
  · exact ⟨_, rfl⟩

theorem taskNext_spec (n : ℕ) (hrun : x.state = .running) :
    (taskNext n x).1.references = x.references ∧ (taskNext n x).1.privileged = x.privileged ∧
    (taskNext n x).1.state = (taskNext n x).2.state ∧ (x.Ok → (taskNext n x).1.Ok) := by
  unfold taskNext
  split
  next hempty =>
    split
    next hdone => exact ⟨rfl, rfl, rfl, fun hx => hx.set (fun hi => by cases hi) (fun _ => ⟨hdone.1, hempty, hdone.2⟩)⟩
    · exact ⟨rfl, rfl, rfl, fun hx => hx.set (fun _ => hempty) (fun hd => by cases hd)⟩
  · split
    · exact ⟨rfl, rfl, rfl, fun hx => hx.set (fun hi => by cases hi) (fun hd => by cases hd)⟩
    · exact ⟨rfl, rfl, hrun, fun hx => hx.take hrun⟩

theorem taskTail_spec {n : ℕ} {next : Next} (h : taskTail n x = .ok (x', next)) (hrun : x.state = .running) :
    x'.references = x.references ∧ x'.privileged = x.privileged ∧ x'.state = next.state ∧ (x.Ok → x'.Ok) := by
  obtain ⟨y, hy, h⟩ := bind_eq_ok h
  obtain ⟨hrefs, hpriv, hstate, hok⟩ := taskOrphan_spec hy hrun
  obtain ⟨hrefs', hpriv', hstate', hok'⟩ := taskNext_spec n hstate
  have heq : taskNext n y = (x', next) := Except.ok.inj h
  rw [heq] at hrefs' hpriv' hstate' hok'
  exact ⟨hrefs'.trans hrefs, hpriv'.trans hpriv, hstate', fun hx => hok' (hok hx)⟩

theorem taskTail_total (n : ℕ) (h : x.Ok) (hrun : x.state = .running) : ∃ r, taskTail n x = .ok r := by
  obtain ⟨y, hy⟩ := taskOrphan_total h hrun
  refine ⟨taskNext n y, ?_⟩
  unfold taskTail
  rw [hy]
  rfl

theorem taskBegin_spec {next : Next} (h : taskBegin x = .ok (x', next)) :
    x'.references = x.references ∧ x'.privileged = x.privileged ∧ x'.state = next.state ∧ (x.Ok → x'.Ok) := by
  unfold taskBegin at h
  obtain ⟨_, -, h⟩ := bind_eq_ok h
  have hset : x.Ok → ({ x with state := .running } : Task).Ok :=
    fun hok => hok.set (fun hi => by cases hi) (fun hd => by cases hd)
  simp only at h
  split at h
  · obtain ⟨hrefs, hpriv, hstate, hok⟩ := taskTail_spec h rfl
    exact ⟨hrefs, hpriv, hstate, fun hx => hok (hset hx)⟩
  · cases h
    exact ⟨rfl, rfl, rfl, fun hx => (hset hx).take rfl⟩

theorem taskBegin_total (h : x.Ok) (hready : x.state = .ready) : ∃ r, taskBegin x = .ok r := by
  unfold taskBegin
  rw [require_true (beq_iff_eq.2 hready), ok_then]
  simp only
  split
  · exact taskTail_total 0 (h.set (fun hi => by cases hi) (fun hd => by cases hd)) rfl
  · exact ⟨_, rfl⟩

/-! ### Sections that may find the task idle -/

/-- What the sections of calls have in common; `d` references are given up. -/
def Section (d : ℕ) (f : Task → Exec (Task × Bool)) : Prop :=
  ∀ x x' wasIdle, f x = .ok (x', wasIdle) → x'.references + d = x.references ∧ x'.privileged = x.privileged ∧
    Woken x x' wasIdle ∧ (x.Ok → x'.Ok)

theorem section_shutdown : Section 0 taskShutdown := by
  intro x x' wasIdle h
  obtain ⟨hrefs, hpriv, -, hstate, hok⟩ := taskShutdown_spec h
  exact ⟨hrefs, hpriv, hstate, hok⟩

theorem section_send (event : Event) : Section 0 (taskSend event) := fun _ _ _ h => taskSend_spec h

theorem section_detach : Section 1 taskDetach := fun _ _ _ h => taskDetach_spec h

theorem section_sendanddetach (event : Event) : Section 1 (taskSendanddetach event) := fun _ _ _ h => taskSendanddetach_spec h

end Bind9.Taskmgr
