import Bind9.TaskmgrRun

/-! # The privileged mode

`ready_priority_tasks` is to be the part of `ready_tasks` with the privileged tasks.  `isc__task_setprivilege` sets the flag in
one section and links or unlinks the task in another, and it does not look whether a send in between has linked it already,
nor whether the flag was changed again.  A task that is linked already and is appended once more leaves pointers that are no
list.  A run in which this does not happen (`privOk`) keeps the two lists right. -/

namespace Bind9.Taskmgr

open List
open Function

set_option linter.unusedSectionVars false

variable {T K : Type} [DecidableEq T] [DecidableEq K]

/-- What the ready lists are to be; a list that is held has no element twice. -/
structure Sound (s : State T K) : Prop where
  nodup : s.readyTasks.Nodup
  holds : ∃ l, s.readyPriorityTasks.Holds l
  sub : ∀ k ∈ s.readyPriorityTasks, k ∈ s.readyTasks
  flagged : ∀ k ∈ s.readyTasks, (s.task k).privileged = true → (∀ u, changing s k u = false) → k ∈ s.readyPriorityTasks

section sound

variable {s s' : State T K} {t : T} {k : K}

theorem Inv.sound [Fintype T] (h : Inv s) : Sound s := by
  refine ⟨h.nodup, h.queues.holds, h.queues.sub, fun k hk hflag hnone => ?_⟩
  obtain hmem | ⟨u, hu⟩ := h.queues.flagged k hk hflag
  · exact hmem
  · rw [hnone u] at hu
    cases hu

/-- The second section of `isc__task_setprivilege` when it is not as expected. -/
theorem privOk_of_sound (h : Sound s) (hnext : nextStep s t = .ok s') (h' : Sound s') : privOk s t .next := by
  unfold privOk
  unfold nextStep at hnext
  cases hc : s.call t with
  | none | ready | detach | exclusive | pause | destroying => trivial
  | privilege k priv =>
    rw [hc] at hnext
    obtain ⟨l, hl⟩ := h.holds
    cases priv with
    | true =>
      cases hnext
      intro hmem
      obtain ⟨l', hl'⟩ := h'.holds
      have hl' : IscList.Holds (if k ∈ s.readyTasks then s.readyPriorityTasks.enqueue k else s.readyPriorityTasks) l' := hl'
      rw [if_pos (h.sub k hmem)] at hl'
      exact hl.enqueue_mem (hl.mem_iff.1 hmem) l' hl'
    | false =>
      obtain ⟨q, hq, hnext⟩ := bind_eq_ok hnext
      cases hnext
      obtain ⟨q', hq', -, hmem⟩ := hl.dequeueLinked k
      cases hq'.symm.trans hq
      intro hready hflag
      by_contra hnone
      -- nobody is left who would link the task
      have hin : k ∈ q := by
        refine h'.flagged k hready hflag (fun u => ?_)
        by_contra hu
        rw [Bool.not_eq_false] at hu
        simp only [changing, State.setCall] at hu
        by_cases hut : u = t
        · subst hut
          rw [update_self] at hu
          cases hu
        · rw [update_of_ne hut] at hu
          exact hnone ⟨u, hut, hu⟩
      exact ((hmem k).1 hin).2 rfl

/-! ### Workers and the mode -/

theorem setWork_work (s : State T K) (t : T) (w : Work K) : (s.setWork t w).work t = w := update_self ..

variable {turn : Turn K}

theorem turn_popped (hsound : ∃ l, s.readyPriorityTasks.Holds l) (hpop : ∀ k, turn = .pop k → s.readyq = some k)
    (hturn : s.turn t turn = .ok s') (hk : s'.work t = .popped k) (hmode : s'.mode = .privileged) :
    k ∈ s.readyPriorityTasks := by
  cases turn with
  | wait =>
    cases hturn
    have hwork : (update s.work t .waiting) t = .waiting := update_self ..
    cases hwork.symm.trans hk
  | pop k' =>
    obtain ⟨-, q, -, rfl⟩ := turn_pop_ok hturn
    have hwork : (update s.work t (.popped k')) t = .popped k' := update_self ..
    cases hwork.symm.trans hk
    have hhead := hpop k rfl
    have hmode : s.mode = .privileged := hmode
    unfold State.readyq at hhead
    rw [hmode] at hhead
    obtain ⟨l, hl⟩ := hsound
    exact hl.mem_of_head hhead
  | exit drop =>
    cases hturn
    have hwork : ∀ s1 : State T K, (s1.setWork t .exited).work t = .exited := fun _ => update_self ..
    cases (hwork _).symm.trans hk

theorem dropMode_mode (hmode : s.mode = .privileged) (hdrop : s.dropMode.mode = .normal) :
    s.tasksRunning = 0 ∧ s.readyPriorityTasks.head = none := by
  unfold State.dropMode at hdrop
  split at hdrop
  next h =>
    have hreadyq := h.2
    unfold State.readyq at hreadyq
    rw [hmode] at hreadyq
    exact ⟨h.1, hreadyq⟩
  · cases hmode.symm.trans hdrop

theorem turn_mode (hmode : s.mode = .privileged) (hturn : s.turn t turn = .ok s') (hdrop : s'.mode = .normal) :
    s.tasksRunning = 0 ∧ s'.readyPriorityTasks.head = none := by
  cases turn with
  | wait =>
    cases hturn
    cases hmode.symm.trans hdrop
  | pop k =>
    obtain ⟨-, q, -, rfl⟩ := turn_pop_ok hturn
    cases hmode.symm.trans hdrop
  | exit drop =>
    cases hturn
    cases drop with
    | false => cases hmode.symm.trans hdrop
    | true =>
      obtain ⟨hrunning, hempty⟩ := dropMode_mode hmode hdrop
      exact ⟨hrunning, (congrArg IscList.head (dropMode_same s).2.1).trans hempty⟩

/-- A turn in the normal mode finds a ready list of the privileged mode without elements and leaves it so. -/
theorem turn_empty (h : s.readyPriorityTasks.head = none) (hsound : ∃ l, s.readyPriorityTasks.Holds l)
    (hturn : s.turn t turn = .ok s') : s'.readyPriorityTasks.head = none := by
  cases turn with
  | wait =>
    cases hturn
    exact h
  | pop k =>
    obtain ⟨-, q, hq, rfl⟩ := turn_pop_ok hturn
    obtain ⟨l, hl⟩ := hsound
    have hnil : l = [] := head?_eq_none_iff.1 (hl.head.symm.trans h)
    subst hnil
    obtain ⟨q', hq', hl', -⟩ := hl.dequeueLinked k
    cases hq'.symm.trans hq
    exact hl'.head
  | exit drop =>
    cases hturn
    cases drop with
    | false => exact h
    | true => exact (congrArg IscList.head (dropMode_same s).2.1).trans h

theorem requeued_priority (s : State T K) (t : T) (requeue : Option K) :
    (requeued s t requeue).readyPriorityTasks = match requeue with
      | some k => if (s.task k).privileged then s.readyPriorityTasks.enqueue k else s.readyPriorityTasks
      | none => s.readyPriorityTasks := by
  cases requeue with
  | none | some k => exact (dropMode_same _).2.1

theorem Inv.workStep_popped [Fintype T] (h : Inv s) (hstep : workStep s t = .ok s') (hk : s'.work t = .popped k)
    (hmode : s'.mode = .privileged) :
    k ∈ s.readyPriorityTasks ∨ s.work t = .ending (some k) ∧ (s.task k).privileged = true := by
  unfold workStep at hstep
  cases hw : s.work t with
  | outside | exited =>
    rw [hw] at hstep
    cases hstep
    cases hw.symm.trans hk
  | start =>
    rw [hw] at hstep
    exact .inl (turn_popped h.queues.holds (fun _ hpop => outerTurn_pop hpop) hstep hk hmode)
  | waiting =>
    rw [hw] at hstep
    exact .inl (turn_popped h.queues.holds (fun _ hpop => innerTurn_pop hpop) hstep hk hmode)
  | popped k' =>
    rw [hw] at hstep
    obtain ⟨⟨x, next⟩, -, hstep⟩ := bind_eq_ok hstep
    cases hstep
    have hwork : next.work k' 0 = .popped k := (setWork_work ..).symm.trans hk
    cases next <;> cases hwork
  | acting k' n =>
    rw [hw] at hstep
    obtain ⟨⟨x, next⟩, -, hstep⟩ := bind_eq_ok hstep
    cases hstep
    have hwork : next.work k' (n + 1) = .popped k := (setWork_work ..).symm.trans hk
    cases next <;> cases hwork
  | finished k' =>
    rw [hw] at hstep
    obtain ⟨s1, -, hstep⟩ := bind_eq_ok hstep
    cases hstep
    have hwork : Work.ending none = .popped k := (setWork_work ..).symm.trans hk
    cases hwork
  | ending requeue =>
    rw [hw] at hstep
    have hstep : s.dispatchEnd t requeue = .ok s' := hstep
    rw [dispatchEnd_eq] at hstep
    have hmem := turn_popped (h.requeued hw).queues.holds (fun _ hpop => outerTurn_pop hpop) hstep hk hmode
    rw [requeued_priority] at hmem
    cases requeue with
    | none => exact .inl hmem
    | some k' =>
      simp only at hmem
      split at hmem
      next hflag =>
        obtain hmem | rfl := IscList.mem_enqueue.1 hmem
        · exact .inl hmem
        · exact .inr ⟨rfl, hflag⟩
      · exact .inl hmem

theorem Inv.workStep_mode [Fintype T] (h : Inv s) (hstep : workStep s t = .ok s') (hmode : s.mode = .privileged)
    (hdrop : s'.mode = .normal) :
    (∃ requeue, s.work t = .ending requeue ∧ s.tasksRunning - 1 = 0 ∨ (s.work t).busy = false ∧ s.tasksRunning = 0) ∧
    s'.readyPriorityTasks.head = none := by
  unfold workStep at hstep
  cases hw : s.work t with
  | outside | exited =>
    rw [hw] at hstep
    cases hstep
    cases hmode.symm.trans hdrop
  | start | waiting =>
    rw [hw] at hstep
    obtain ⟨hrunning, hempty⟩ := turn_mode hmode hstep hdrop
    exact ⟨⟨none, Or.inr ⟨rfl, hrunning⟩⟩, hempty⟩
  | popped k | acting k n =>
    rw [hw] at hstep
    obtain ⟨⟨x, next⟩, -, hstep⟩ := bind_eq_ok hstep
    cases hstep
    cases hmode.symm.trans hdrop
  | finished k =>
    rw [hw] at hstep
    obtain ⟨s1, h1, hstep⟩ := bind_eq_ok hstep
    cases hstep
    obtain ⟨_, -, h1⟩ := bind_eq_ok h1
    cases h1
    cases hmode.symm.trans hdrop
  | ending requeue =>
    rw [hw] at hstep
    have hstep : s.dispatchEnd t requeue = .ok s' := hstep
    rw [dispatchEnd_eq] at hstep
    have hholds := (h.requeued hw).queues.holds
    have hend : ∀ s1 : State T K, s1.mode = .privileged → s1.tasksRunning = s.tasksRunning - 1 →
        (∃ l, (s1.dropMode.setWork t .start).readyPriorityTasks.Holds l) →
        (s1.dropMode.setWork t .start).turn t (s1.dropMode.setWork t .start).outerTurn = .ok s' →
        s.tasksRunning - 1 = 0 ∧ s'.readyPriorityTasks.head = none := by
      intro s1 hmode1 hrunning hl hturn
      have hrunning' : s1.dropMode.tasksRunning = s1.tasksRunning := by
        unfold State.dropMode
        split <;> rfl
      cases hm : s1.dropMode.mode with
      | normal =>
        obtain ⟨hzero, hempty⟩ := dropMode_mode hmode1 hm
        have hempty' : (s1.dropMode.setWork t .start).readyPriorityTasks.head = none :=
          (congrArg IscList.head (dropMode_same s1).2.1).trans hempty
        exact ⟨hrunning.symm.trans hzero, turn_empty hempty' hl hturn⟩
      | privileged =>
        obtain ⟨hzero, hempty⟩ := turn_mode (s := s1.dropMode.setWork t .start) hm hturn hdrop
        exact ⟨(hrunning.symm.trans hrunning'.symm).trans hzero, hempty⟩
    have hzero : s.tasksRunning - 1 = 0 ∧ s'.readyPriorityTasks.head = none := by
      cases requeue with
      | none => exact hend { s with tasksRunning := s.tasksRunning - 1 } hmode rfl hholds hstep
      | some k => exact hend (State.pushReadyq { s with tasksRunning := s.tasksRunning - 1 } k) hmode rfl hholds hstep
    exact ⟨⟨requeue, Or.inl ⟨rfl, hzero.1⟩⟩, hzero.2⟩

theorem step_mode {a : Action T K} (hstep : step s t a = .ok s') (ha : a ≠ .work) (hmode : s.mode = .privileged)
    (hdrop : s'.mode = .normal) : a = .setmode .normal ∨ a = .taskmgrDestroy := by
  have hsame : s'.mode = s.mode → a = .setmode .normal ∨ a = .taskmgrDestroy := by
    intro h
    cases (hmode.symm.trans h.symm).trans hdrop
  have hsection : ∀ {k f idle other}, onTask s t k f idle other = .ok s' → s'.mode = s.mode := by
    intro k f idle other h
    obtain ⟨x, wasIdle, -, rfl⟩ := onTask_ok h
    rfl
  have hdetach : ∀ {k f}, detachStep s t k f = .ok s' → s'.mode = s.mode := by
    intro k f h
    obtain ⟨x, wasIdle, -, rfl⟩ := detachStep_ok h
    rfl
  have hpause : (pauseWait s t).mode = s.mode := by
    unfold pauseWait
    split <;> rfl
  unfold step at hstep
  cases a with
  | create k quantum =>
    simp only at hstep
    split at hstep
    · cases hstep
      exact hsame rfl
    · cases hstep
      exact hsame rfl
  | attach | purgerange | purgeevent | unsendrange | onshutdown | resume | dispatch | give =>
    cases hstep
    exact hsame rfl
  | detach | sendanddetach => exact hsame (hdetach hstep)
  | send | shutdown | destroy => exact hsame (hsection hstep)
  | beginexclusive k =>
    obtain ⟨_, -, hstep⟩ := bind_eq_ok hstep
    cases hstep
    apply hsame
    split <;> rfl
  | endexclusive k =>
    obtain ⟨_, -, hstep⟩ := bind_eq_ok hstep
    obtain ⟨_, -, hstep⟩ := bind_eq_ok hstep
    cases hstep
    exact hsame rfl
  | pause =>
    cases hstep
    exact hsame hpause
  | setprivilege k priv =>
    cases hstep
    apply hsame
    split <;> rfl
  | setmode mode =>
    cases hstep
    exact .inl (congrArg Action.setmode hdrop)
  | taskmgrDestroy => exact .inr rfl
  | work => exact absurd rfl ha
  | next =>
    unfold nextStep at hstep
    apply hsame
    cases hc : s.call t with
    | none | exclusive =>
      rw [hc] at hstep
      cases hstep
      rfl
    | ready k destroy =>
      rw [hc] at hstep
      obtain ⟨_, -, hstep⟩ := bind_eq_ok hstep
      cases hstep
      rfl
    | detach k =>
      rw [hc] at hstep
      exact hdetach hstep
    | privilege k priv =>
      rw [hc] at hstep
      cases priv with
      | true =>
        cases hstep
        rfl
      | false =>
        obtain ⟨q, -, hstep⟩ := bind_eq_ok hstep
        cases hstep
        rfl
    | pause =>
      rw [hc] at hstep
      cases hstep
      exact hpause
    | destroying =>
      rw [hc] at hstep
      simp only at hstep
      split at hstep
      · obtain ⟨⟨x, wasIdle⟩, -, hstep⟩ := bind_eq_ok hstep
        cases hstep
        split <;> rfl
      · cases hstep
        rfl

variable [Fintype T]

/-- The workers when the mode is dropped. -/
theorem Inv.not_busy (h : Inv s) {u : T} (hut : u ≠ t) {requeue : Option K}
    (hrunning : s.work t = .ending requeue ∧ s.tasksRunning - 1 = 0 ∨ (s.work t).busy = false ∧ s.tasksRunning = 0) :
    (s.work u).busy = false := by
  have hcount := h.running
  obtain ⟨ht, hzero⟩ | ⟨-, hzero⟩ := hrunning
  · have hone : Threads.count Work.busy s.work ≤ 1 := by omega
    by_contra hbusy
    rw [Bool.not_eq_false] at hbusy
    have htbusy : (s.work t).busy = true := by
      rw [ht]
      rfl
    exact hut (Threads.eq_of_count_le_one hone hbusy htbusy)
  · exact Threads.count_eq_zero.1 (hcount.symm.trans hzero) u

end sound

/-- In every run in which `isc__task_setprivilege` finds what it expects: the ready lists are as they are to be, a step keeps
them so exactly when `isc__task_setprivilege` finds what it expects once more, a worker pops a task of `ready_priority_tasks`
in the privileged mode (it may have put it there in the same section), and the mode falls back when no worker has a task and
this list is empty, by `isc__taskmgr_setmode`, or by `isc__taskmgr_destroy`. -/
theorem privileged_mode_respected [Fintype T] {defaultQuantum : ℕ} {s : State T K} (h : Reach privOk defaultQuantum s) :
    Sound s ∧ ∀ t a s', permitted s t a = true → step s t a = .ok s' → (Sound s' ↔ privOk s t a) ∧
      (∀ k, a = .work → s'.work t = .popped k → s'.mode = .privileged →
        k ∈ s.readyPriorityTasks ∨ s.work t = .ending (some k) ∧ (s.task k).privileged = true) ∧
      (s.mode = .privileged → s'.mode = .normal → a = .setmode .normal ∨ a = .taskmgrDestroy ∨
        (∀ u, u ≠ t → (s.work u).busy = false) ∧ ((s.work t).busy = false ∨ ∃ requeue, s.work t = .ending requeue) ∧
        s'.readyPriorityTasks.head = none) := by
  have hinv := h.inv
  refine ⟨hinv.sound, fun t a s' hp hstep => ⟨⟨fun hs' => ?_, fun hpriv => (hinv.step hp hpriv hstep).sound⟩,
    fun k ha hk hmode => ?_, fun hmode hdrop => ?_⟩⟩
  · cases a with
    | next => exact privOk_of_sound hinv.sound hstep hs'
    | _ => trivial
  · subst ha
    exact hinv.workStep_popped hstep hk hmode
  · by_cases ha : a = .work
    · subst ha
      obtain ⟨⟨requeue, hrunning⟩, hempty⟩ := hinv.workStep_mode hstep hmode hdrop
      refine .inr (.inr ⟨fun u hut => hinv.not_busy hut hrunning, ?_, hempty⟩)
      exact hrunning.elim (fun ht => Or.inr ⟨requeue, ht.1⟩) (fun ht => Or.inl ht.1)
    · exact (step_mode hstep ha hmode hdrop).elim Or.inl (fun hd => Or.inr (Or.inl hd))

/-- A thread sets the privilege of two tasks and clears one again; the worker runs the other in the privileged mode, which falls
back behind it. -/
theorem privileged_mode_respected_ending : ∃ s s' s2 s2' : State (Fin 2) (Fin 2), Reach privOk 0 s ∧ Reach privOk 0 s2 ∧
    s.readyTasks = [1, 0] ∧ 1 ∉ s.readyPriorityTasks ∧ Sound s ∧ Sound s2 ∧
    step s 1 .work = .ok s' ∧ s'.work 1 = .popped 0 ∧ (0 ∈ s.readyPriorityTasks ∨ s.work 1 = .ending (some 0)) ∧
    step s2 1 .work = .ok s2' ∧ s2.mode = .privileged ∧ s2'.mode = .normal ∧ s2'.readyPriorityTasks.head = none := by
  have hrun : (trace undisturbed (init (Fin 2) (Fin 2) 0) [(0, .create 0 0), (0, .create 1 0), (0, .setprivilege 0 true),
      (0, .next), (0, .send 1 ⟨7, 1, 0, 0, false⟩), (0, .next), (0, .setprivilege 1 true), (0, .next),
      (0, .send 0 ⟨8, 1, 0, 0, false⟩), (0, .next), (0, .setprivilege 1 false), (0, .next), (0, .setmode .privileged),
      (1, .dispatch)]).isSome = true := by decide
  obtain ⟨s, hs⟩ := Option.isSome_iff_exists.1 hrun
  have hreach := Reach.trace privOk_of_undisturbed _ (Reach.init) hs
  have hrun2 : (trace undisturbed s [(1, .work), (1, .work), (1, .work)]).isSome = true := by
    cases hs
    decide
  obtain ⟨s2, hs2⟩ := Option.isSome_iff_exists.1 hrun2
  have hreach2 := Reach.trace privOk_of_undisturbed _ hreach hs2
  have hlists : s.readyTasks = [1, 0] ∧ 1 ∉ s.readyPriorityTasks ∧ permitted s 1 .work = true ∧
      (step s 1 .work).toOption.map (fun s' => (s'.work 1, s'.mode)) = some (.popped 0, .privileged) := by
    cases hs
    decide
  have hends : s2.mode = .privileged ∧ permitted s2 1 .work = true ∧
      (step s2 1 .work).toOption.map State.mode = some .normal := by
    cases hs
    cases hs2
    decide
  obtain ⟨hsound, hsteps⟩ := privileged_mode_respected hreach
  obtain ⟨hsound2, hsteps2⟩ := privileged_mode_respected hreach2
  obtain ⟨hready, hnot, hp, hstep⟩ := hlists
  obtain ⟨hmode2, hp2, hstep2⟩ := hends
  cases hs' : step s 1 .work with
  | error e =>
    rw [hs'] at hstep
    cases hstep
  | ok s' =>
    cases hs2' : step s2 1 .work with
    | error e =>
      rw [hs2'] at hstep2
      cases hstep2
    | ok s2' =>
      rw [hs'] at hstep
      rw [hs2'] at hstep2
      obtain ⟨hpop, hmode⟩ := Prod.mk.inj (Option.some.inj hstep)
      have hdrop : s2'.mode = .normal := Option.some.inj hstep2
      have hmem := (hsteps 1 .work s' hp hs').2.1 0 rfl hpop hmode
      obtain hset | hdestroy | ⟨-, -, hempty⟩ := (hsteps2 1 .work s2' hp2 hs2').2.2 hmode2 hdrop
      · cases hset
      · cases hdestroy
      · exact ⟨s, s', s2, s2', hreach, hreach2, hready, hnot, hsound, hsound2, hs', hpop, hmem.imp id And.left, hs2', hmode2,
          hdrop, hempty⟩

/-- A thread sets the privilege, and before it has put the task into `ready_priority_tasks` another one wakes the task up and then
another privileged task.  The list ends behind the first, and the worker that takes it stops. -/
theorem task_lost_in_priority : ∃ s : State (Fin 3) (Fin 2), Reach (fun _ _ _ => True) 0 s ∧
    s.readyTasks = [0, 1] ∧ (s.task 1).privileged = true ∧ (∀ k u, changing s k u = false) ∧
    s.readyPriorityTasks.head = some 0 ∧ s.readyPriorityTasks.next 0 = some none ∧ ¬ Sound s ∧
    permitted s 2 .work = true ∧ step s 2 .work = .error .assertion := by
  have hrun : (trace (fun _ _ _ => true) (init (Fin 3) (Fin 2) 0) [(0, .create 0 0), (0, .attach 0), (0, .give 1 0),
      (1, .create 1 0), (1, .setprivilege 1 true), (1, .next), (0, .setprivilege 0 true), (1, .send 0 ⟨7, 1, 0, 0, false⟩),
      (1, .next), (1, .send 1 ⟨8, 1, 0, 0, false⟩), (1, .next), (0, .next), (2, .dispatch)]).isSome = true := by decide
  obtain ⟨s, hs⟩ := Option.isSome_iff_exists.1 hrun
  have hreach : Reach (fun _ _ _ => True) 0 s := Reach.trace (fun _ _ _ _ => trivial) _ (Reach.init) hs
  have hlists : s.readyTasks = [0, 1] ∧ s.readyPriorityTasks.head = some 0 ∧ s.readyPriorityTasks.next 0 = some none := by
    cases hs
    decide
  have hflag : (s.task 1).privileged = true := by
    cases hs
    decide
  have hcalls : ∀ k u, changing s k u = false := by
    cases hs
    decide
  refine ⟨s, hreach, hlists.1, hflag, hcalls, hlists.2.1, hlists.2.2, fun hsound => ?_, ?_, ?_⟩
  · obtain ⟨l, hl⟩ := hsound.holds
    obtain ⟨d, rfl⟩ := head?_eq_some_iff.1 (hl.head.symm.trans hlists.2.1)
    have hend : d.head? = none := Option.some.inj ((hl.next [] 0 d rfl).symm.trans hlists.2.2)
    rw [head?_eq_none_iff.1 hend] at hl
    have hready : (1 : Fin 2) ∈ s.readyTasks := by
      rw [hlists.1]
      decide
    have hmem := hl.mem_iff.1 (hsound.flagged 1 hready hflag (hcalls 1))
    exact absurd hmem (by decide)
  · cases hs
    decide
  · cases hs
    rfl

end Bind9.Taskmgr
