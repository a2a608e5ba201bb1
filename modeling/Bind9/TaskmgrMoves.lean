import Bind9.TaskmgrTask
import Bind9.TaskmgrTokens

/-! # The moves of a step

A section of a thread changes the view by the moves of `Bind9.TaskmgrTokens`. -/

namespace Bind9.Taskmgr

open Function

set_option linter.unusedSectionVars false

variable {T K : Type} [DecidableEq T] [DecidableEq K]

/-! ### Views -/

section view

variable (s : State T K) (t : T) (k : K)

theorem view_setTask (x : Task) :
    (s.setTask k x).view = { s.view with state := update s.view.state k x.state } := by
  unfold State.view State.setTask
  congr 1
  funext k'
  by_cases hk : k' = k
  · subst hk
    simp only [update_self]
  · simp only [update_of_ne hk]

theorem view_setTask_same {x : Task} (h : x.state = (s.task k).state) : (s.setTask k x).view = s.view := by
  rw [view_setTask, h]
  have hsame : update s.view.state k (s.task k).state = s.view.state := update_eq_self k s.view.state
  rw [hsame]

theorem view_setCall (c : Call K) :
    (s.setCall t c).view = { s.view with pend := update s.view.pend t c.pend } := by
  unfold State.view State.setCall
  congr 1
  funext u
  by_cases hu : u = t
  · subst hu
    simp only [update_self]
  · simp only [update_of_ne hu]

theorem view_setCall_same {c : Call K} (h : c.pend = (s.call t).pend) : (s.setCall t c).view = s.view := by
  rw [view_setCall, h]
  have hsame : update s.view.pend t (s.call t).pend = s.view.pend := update_eq_self t s.view.pend
  rw [hsame]

theorem view_setWork (w : Work K) :
    (s.setWork t w).view = { s.view with has := update s.view.has t w.has } := by
  unfold State.view State.setWork
  congr 1
  funext u
  by_cases hu : u = t
  · subst hu
    simp only [update_self]
  · simp only [update_of_ne hu]

theorem view_setWork_same {w : Work K} (h : w.has = (s.work t).has) : (s.setWork t w).view = s.view := by
  rw [view_setWork, h]
  have hsame : update s.view.has t (s.work t).has = s.view.has := update_eq_self t s.view.has
  rw [hsame]

theorem view_setHeld (n : ℕ) : (s.setHeld k t n).view = s.view := rfl

end view

def Moves (s s' : State T K) : Prop := Relation.ReflTransGen Move s.view s'.view

theorem Moves.of_eq {s s' : State T K} (h : s'.view = s.view) : Moves s s' := by
  unfold Moves
  rw [h]

theorem Moves.single {s s' : State T K} {v : View T K} (h : Move s.view v) (hv : s'.view = v) : Moves s s' := by
  unfold Moves
  rw [hv]
  exact Relation.ReflTransGen.single h

/-! ### The moves of a step -/

section moves

variable {s s' : State T K} {t : T} {k : K} {f : Task → Exec (Task × Bool)}

variable {idle other : Call K}

theorem onTask_ok (h : onTask s t k f idle other = .ok s') :
    ∃ x wasIdle, f (s.task k) = .ok (x, wasIdle) ∧ s' = (s.setTask k x).setCall t (if wasIdle then idle else other) := by
  obtain ⟨⟨x, wasIdle⟩, hf, h⟩ := bind_eq_ok h
  cases h
  exact ⟨x, wasIdle, hf, rfl⟩

theorem onTask_total (h : ∃ r, f (s.task k) = .ok r) : ∃ s', onTask s t k f idle other = .ok s' := by
  obtain ⟨⟨x, wasIdle⟩, hf⟩ := h
  unfold onTask
  rw [hf]
  exact ⟨_, rfl⟩

theorem detachStep_total (h : ∃ r, f (s.task k) = .ok r) : ∃ s', detachStep s t k f = .ok s' := by
  have hsection : ∃ s', onTask s t k f (.ready k false) .none = .ok s' := onTask_total h
  obtain ⟨s', hs'⟩ := hsection
  unfold detachStep
  rw [hs']
  exact ⟨_, rfl⟩

theorem detachStep_ok (h : detachStep s t k f = .ok s') : ∃ x wasIdle, f (s.task k) = .ok (x, wasIdle) ∧
      s' = ((s.setTask k x).setCall t (if wasIdle then .ready k false else .none)).setHeld k t (s.held k t - 1) := by
  obtain ⟨s1, h1, h⟩ := bind_eq_ok h
  obtain ⟨x, wasIdle, hf, rfl⟩ := onTask_ok h1
  cases h
  exact ⟨x, wasIdle, hf, rfl⟩

theorem moves_section {d : ℕ} (hf : Section d f) {x : Task} {wasIdle : Bool}
    (hx : f (s.task k) = .ok (x, wasIdle)) (hk : k ∈ s.tasks) (ht : (s.call t).pend = none)
    (hidle : idle.pend = some k) (hother : other.pend = none) :
    Moves s ((s.setTask k x).setCall t (if wasIdle then idle else other)) := by
  obtain ⟨-, -, hstate, -⟩ := hf _ _ _ hx
  cases wasIdle with
  | true =>
    apply Moves.single (Move.wake t k hk hstate.1 ht)
    rw [if_pos rfl, view_setCall, view_setTask, hidle, hstate.2]
  | false =>
    apply Moves.of_eq
    have hsame : other.pend = ((s.setTask k x).call t).pend := hother.trans ht.symm
    rw [if_neg Bool.false_ne_true, view_setCall_same _ _ hsame, view_setTask_same _ _ hstate]

theorem innerTurn_pop (h : s.innerTurn = .pop k) : s.readyq = some k := by
  unfold State.innerTurn at h
  split at h
  · cases h
  split at h
  next hhead =>
    cases h
    exact hhead
  · cases h

theorem outerTurn_pop (h : s.outerTurn = .pop k) : s.readyq = some k := by
  unfold State.outerTurn at h
  split at h
  · cases h
  · exact innerTurn_pop h

theorem dropMode_same (s : State T K) : s.dropMode.readyTasks = s.readyTasks ∧
    s.dropMode.readyPriorityTasks = s.readyPriorityTasks ∧ s.dropMode.view = s.view ∧ s.dropMode.work = s.work ∧
    s.dropMode.call = s.call ∧ s.dropMode.task = s.task := by
  unfold State.dropMode
  split <;> exact ⟨rfl, rfl, rfl, rfl, rfl, rfl⟩

theorem popReadyq_ok (h : s.popReadyq k = .ok s') : k ∈ s.readyTasks ∧ ∃ q, s.readyPriorityTasks.dequeueLinked k = .ok q ∧
    s' = { s with readyTasks := s.readyTasks.erase k, readyPriorityTasks := q } := by
  unfold State.popReadyq at h
  split at h
  next hk =>
    obtain ⟨q, hq, h⟩ := bind_eq_ok h
    cases h
    exact ⟨hk, q, hq, rfl⟩
  · cases h

theorem turn_pop (s : State T K) (t : T) (k : K) : s.turn t (.pop k) = (s.popReadyq k).map (fun s1 =>
    ({ s1 with tasksRunning := s1.tasksRunning + 1 } : State T K).setWork t (.popped k)) := by
  show (s.popReadyq k >>= _) = _
  cases s.popReadyq k <;> rfl

theorem turn_pop_ok (h : s.turn t (.pop k) = .ok s') : k ∈ s.readyTasks ∧ ∃ q,
    s.readyPriorityTasks.dequeueLinked k = .ok q ∧ s' = ({ s with
      readyTasks := s.readyTasks.erase k
      readyPriorityTasks := q
      tasksRunning := s.tasksRunning + 1 } : State T K).setWork t (.popped k) := by
  rw [turn_pop] at h
  cases hpop : s.popReadyq k with
  | error e =>
    rw [hpop] at h
    cases h
  | ok s1 =>
    rw [hpop] at h
    cases h
    obtain ⟨hk, q, hq, rfl⟩ := popReadyq_ok hpop
    exact ⟨hk, q, hq, rfl⟩

theorem moves_turn {turn : Turn K} (ht : (s.work t).has = none) (h : s.turn t turn = .ok s') : Moves s s' := by
  cases turn with
  | wait =>
    cases h
    exact Moves.of_eq (view_setWork_same _ _ ht.symm)
  | pop k =>
    obtain ⟨hk, q, -, rfl⟩ := turn_pop_ok h
    apply Moves.single (Move.pop t k hk ht)
    rw [view_setWork]
    rfl
  | exit drop =>
    cases h
    apply Moves.of_eq
    cases drop with
    | false => exact view_setWork_same s t ht.symm
    | true =>
      have hsame : Work.exited.has = (s.dropMode.work t).has := by
        rw [(dropMode_same s).2.2.2.1]
        exact ht.symm
      show (s.dropMode.setWork t .exited).view = s.view
      rw [view_setWork_same _ _ hsame, (dropMode_same s).2.2.1]

theorem mem_readyTasks_of_readyq {l : List K} (hl : s.readyPriorityTasks.Holds l)
    (hpri : ∀ k ∈ s.readyPriorityTasks, k ∈ s.readyTasks) (hk : s.readyq = some k) : k ∈ s.readyTasks := by
  unfold State.readyq at hk
  split at hk
  · exact List.mem_of_mem_head? hk
  · exact hpri k (hl.mem_of_head hk)

theorem dropMode_setWork (s : State T K) (t : T) (w : Work K) : (s.setWork t w).dropMode = s.dropMode.setWork t w := by
  unfold State.dropMode
  have hreadyq : (s.setWork t w).readyq = s.readyq := rfl
  have hrunning : (s.setWork t w).tasksRunning = s.tasksRunning := rfl
  rw [hreadyq, hrunning]
  split <;> rfl

theorem dispatchOuter_setWork (s : State T K) (t : T) (w : Work K) : (s.setWork t w).dispatchOuter t = s.dispatchOuter t := by
  have hset : ∀ (s : State T K) (w w' : Work K), (s.setWork t w).setWork t w' = s.setWork t w' := by
    intro s w w'
    unfold State.setWork
    simp only [update_idem]
  have hturn : (s.setWork t w).outerTurn = s.outerTurn := rfl
  unfold State.dispatchOuter
  rw [hturn]
  cases s.outerTurn with
  | wait => exact congrArg Except.ok (hset s w _)
  | pop k =>
    have hpop : (s.setWork t w).popReadyq k = (s.popReadyq k).map (fun s1 => s1.setWork t w) := by
      unfold State.popReadyq
      by_cases hk : k ∈ s.readyTasks
      · rw [if_pos hk, if_pos (show k ∈ (s.setWork t w).readyTasks from hk)]
        show (do let priority ← s.readyPriorityTasks.dequeueLinked k; _) = _
        cases s.readyPriorityTasks.dequeueLinked k <;> rfl
      · rw [if_neg hk, if_neg (show k ∉ (s.setWork t w).readyTasks from hk)]
        rfl
    rw [turn_pop, turn_pop, hpop]
    cases s.popReadyq k with
    | error e => rfl
    | ok s1 => exact congrArg Except.ok (hset { s1 with tasksRunning := s1.tasksRunning + 1 } w _)
  | exit drop =>
    cases drop with
    | false => exact congrArg Except.ok (hset s w _)
    | true =>
      show Except.ok ((s.setWork t w).dropMode.setWork t .exited) = Except.ok (s.dropMode.setWork t .exited)
      rw [dropMode_setWork]
      exact congrArg Except.ok (hset s.dropMode w _)

/-- The state of `dispatch` behind a task, before its next turn. -/
def requeued (s : State T K) (t : T) (requeue : Option K) : State T K :=
  let s := { s with tasksRunning := s.tasksRunning - 1 }
  let s := match requeue with
    | some k => s.pushReadyq k
    | none => s
  s.dropMode.setWork t .start

theorem dispatchEnd_eq (s : State T K) (t : T) (requeue : Option K) :
    s.dispatchEnd t requeue = (requeued s t requeue).dispatchOuter t := by
  unfold State.dispatchEnd requeued
  exact (dispatchOuter_setWork _ t .start).symm

theorem moves_requeued {requeue : Option K} (ht : s.work t = .ending requeue) : Moves s (requeued s t requeue) := by
  unfold requeued
  cases requeue with
  | none =>
    apply Moves.of_eq
    have hsame : Work.start.has = (({ s with tasksRunning := s.tasksRunning - 1 } : State T K).dropMode.work t).has := by
      rw [(dropMode_same _).2.2.2.1]
      exact (congrArg Work.has ht).symm
    exact (view_setWork_same _ t hsame).trans (dropMode_same _).2.2.1
  | some k =>
    have hhas : s.view.has t = some (k, .ready) := congrArg Work.has ht
    apply Moves.single (Move.requeue t k hhas)
    rw [view_setWork, (dropMode_same _).2.2.1]
    rfl

theorem moves_next (h : nextStep s t = .ok s') (hheld : ∀ k, (s.call t) = .detach k → k ∈ s.tasks)
    (hwalk : ∀ l, s.walk = some l → ∀ k ∈ l, k ∈ s.tasks) : Moves s s' := by
  unfold nextStep at h
  cases hcall : s.call t with
  | none =>
    rw [hcall] at h
    cases h
    exact Moves.of_eq rfl
  | ready k destroy =>
    rw [hcall] at h
    obtain ⟨_, -, h⟩ := bind_eq_ok h
    cases h
    have hpend : s.view.pend t = some k := congrArg Call.pend hcall
    apply Moves.single (Move.queue t k hpend)
    have hnone : (if destroy then Call.detach k else Call.none).pend = Option.none := by
      cases destroy <;> rfl
    rw [view_setCall, hnone]
    rfl
  | detach k =>
    rw [hcall] at h
    obtain ⟨x, wasIdle, hf, rfl⟩ := detachStep_ok h
    have ht : (s.call t).pend = none := by
      rw [hcall]
      rfl
    exact moves_section section_detach hf (hheld k hcall) ht rfl rfl
  | privilege k priv =>
    rw [hcall] at h
    have ht : Call.none.pend = (s.call t).pend := by
      rw [hcall]
      rfl
    apply Moves.of_eq
    cases priv with
    | true =>
      cases h
      exact view_setCall_same { s with readyPriorityTasks := _ } t ht
    | false =>
      obtain ⟨q, -, h⟩ := bind_eq_ok h
      cases h
      exact view_setCall_same { s with readyPriorityTasks := q } t ht
  | exclusive =>
    rw [hcall] at h
    cases h
    apply Moves.of_eq
    apply view_setCall_same
    rw [hcall]
    split <;> rfl
  | pause =>
    rw [hcall] at h
    cases h
    apply Moves.of_eq
    have ht : ∀ c : Call K, c.pend = Option.none → c.pend = (s.call t).pend := by
      intro c hc
      rw [hcall, hc]
      rfl
    unfold pauseWait
    split
    · exact view_setCall_same s t (ht _ rfl)
    · exact view_setCall_same { s with pauseRequested := true } t (ht _ rfl)
  | destroying =>
    rw [hcall] at h
    simp only at h
    split at h
    next k rest hw =>
      obtain ⟨⟨x, wasIdle⟩, hx, h⟩ := bind_eq_ok h
      cases h
      obtain ⟨-, -, hstate, -⟩ := section_shutdown _ _ _ hx
      have hk : k ∈ s.tasks := hwalk _ hw k List.mem_cons_self
      cases wasIdle with
      | true =>
        apply Moves.single (Move.post k hk hstate.1)
        have hview := view_setTask s k x
        rw [hstate.2] at hview
        exact congrArg (fun v : View T K => { v with ready := v.ready ++ [k] }) hview
      | false => exact Moves.of_eq (view_setTask_same s k hstate)
    · cases h
      apply Moves.of_eq
      have ht : Call.none.pend = (s.call t).pend := by
        rw [hcall]
        rfl
      exact view_setCall_same { s with walk := none } t ht

/-- A worker has worked on its task. -/
theorem moves_run {x : Task} {next : Next} {st : TaskState} {n : ℕ} (ht : (s.work t).has = some (k, st))
    (hx : x.state = next.state) : Moves s ((s.setTask k x).setWork t (next.work k n)) := by
  apply Moves.single (Move.run t k st next.state ht)
  have hhas : (next.work k n).has = if next.state = .idle then none else some (k, next.state) := by
    cases next <;> rfl
  rw [view_setWork, view_setTask, hhas, hx]

end moves

end Bind9.Taskmgr
