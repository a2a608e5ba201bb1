import Bind9.TaskmgrMoves

/-! # The runs of the task manager

The invariant of the runs: each task is in order (`Task.Ok`) and is with one at a time (`Valid`), its references are those
that the threads have, the ready list of the privileged mode is a part of `ready_tasks`, and `tasks_running` counts the
workers with a task.  From it: nothing is lost, repeated or run twice at a time, and no assertion fails. -/

namespace Bind9.Taskmgr

open List
open Function
open Bool

set_option linter.unusedSectionVars false

variable {T K : Type}

/-- The task to which a call needs its reference. -/
def Call.keeps : Call K → Option K
  | .ready k true | .detach k | .privilege k _ => some k
  | _ => Option.none

def Call.quiet : Call K → Bool
  | .none | .exclusive | .pause | .destroying => true
  | _ => false

/-- The workers in `tasks_running`. -/
def Work.busy : Work K → Bool
  | .popped _ | .acting _ _ | .finished _ | .ending _ => true
  | _ => false

theorem Work.has_of_not_busy {w : Work K} (h : w.busy = false) : w.has = none := by
  cases w with
  | outside | start | waiting | exited => rfl
  | popped | acting | finished | ending => cases h

theorem Call.pend_of_quiet {c : Call K} (h : c.quiet = true) : c.pend = Option.none := by
  cases c with
  | none | exclusive | pause | destroying => rfl
  | ready | detach | privilege => cases h

theorem Call.keeps_of_quiet {c : Call K} (h : c.quiet = true) : c.keeps = Option.none := by
  cases c with
  | none | exclusive | pause | destroying => rfl
  | ready | detach | privilege => cases h

variable [DecidableEq T] [DecidableEq K]

/-- A thread is in `isc__task_setprivilege` for the task. -/
def changing (s : State T K) (k : K) (u : T) : Bool :=
  match s.call u with
  | .privilege k' _ => k' == k
  | _ => false

/-- The second section of `isc__task_setprivilege` finds what it expects: one that sets the privilege does not find the task
linked in `ready_priority_tasks`, and one that clears it does not find the flag set again, unless somebody else comes. -/
def privOk (s : State T K) (t : T) : Action T K → Prop
  | .next =>
    match s.call t with
    | .privilege k true => k ∉ s.readyPriorityTasks
    | .privilege k false => k ∈ s.readyTasks → (s.task k).privileged = true → ∃ u, u ≠ t ∧ changing s k u = true
    | _ => True
  | _ => True

/-! ### The invariant -/

/-- The references of the tasks are with the threads. -/
structure Owned [Fintype T] (s : State T K) : Prop where
  refs : ∀ k, (s.task k).references = ∑ t, s.held k t
  call : ∀ t k, (s.call t).keeps = some k → 0 < s.held k t

/-- The ready list of the privileged mode is the part of `ready_tasks` with the privileged tasks. -/
structure Queues (s : State T K) : Prop where
  holds : ∃ l, s.readyPriorityTasks.Holds l
  sub : ∀ k ∈ s.readyPriorityTasks, k ∈ s.readyTasks
  flagged : ∀ k ∈ s.readyTasks, (s.task k).privileged = true → k ∈ s.readyPriorityTasks ∨ ∃ u, changing s k u = true

structure Inv [Fintype T] (s : State T K) : Prop where
  valid : Valid s.view
  ok : ∀ k, (s.task k).Ok
  owned : Owned s
  queues : Queues s
  running : s.tasksRunning = Threads.count Work.busy s.work
  walk : ∀ l, s.walk = some l → ∀ k ∈ l, k ∈ s.tasks

section frame

variable {s s' : State T K} {t : T} {k : K}

theorem ok_update (h : ∀ k, (s.task k).Ok) {x : Task} (hx : x.Ok) (k : K) : ∀ k', (update s.task k x k').Ok := by
  intro k'
  by_cases hk : k' = k
  · subst hk
    rw [update_self]
    exact hx
  · rw [update_of_ne hk]
    exact h k'

theorem changing_setCall (ht : ∀ k, changing s k t = false) {c : Call K} (hcall : s'.call = update s.call t c)
    {u : T} (h : changing s k u = true) : changing s' k u = true := by
  have hut : u ≠ t := by
    rintro rfl
    rw [ht k] at h
    cases h
  have hu : s'.call u = s.call u := by
    rw [hcall]
    exact update_of_ne hut _ _
  unfold changing at h ⊢
  rw [hu]
  exact h

theorem changing_of_quiet (h : (s.call t).quiet = true) (k : K) : changing s k t = false := by
  unfold changing
  cases hc : s.call t with
  | privilege k' priv =>
    rw [hc] at h
    cases h
  | none | ready | detach | exclusive | pause | destroying => rfl

theorem Queues.frame (h : Queues s) (hpriv : ∀ k ∈ s.readyTasks, (s'.task k).privileged = true →
      (s.task k).privileged = true ∨ ∃ u, changing s' k u = true)
    (hR : s'.readyTasks = s.readyTasks) (hP : s'.readyPriorityTasks = s.readyPriorityTasks)
    (hcall : ∀ k u, changing s k u = true → changing s' k u = true) : Queues s' := by
  refine ⟨by rw [hP]; exact h.holds, by rw [hP, hR]; exact h.sub, fun k hk hflag => ?_⟩
  rw [hR] at hk
  rw [hP]
  obtain hflag | hu := hpriv k hk hflag
  · obtain hk | ⟨u, hu⟩ := h.flagged k hk hflag
    · exact .inl hk
    · exact .inr ⟨u, hcall k u hu⟩
  · exact .inr hu

theorem Queues.push (h : Queues s) (hk : k ∉ s.readyTasks) : Queues (s.pushReadyq k) := by
  obtain ⟨l, hl⟩ := h.holds
  have hpri : k ∉ l := fun hmem => hk (h.sub k (hl.mem_iff.2 hmem))
  have hmem : ∀ k', k' ∈ (s.pushReadyq k).readyPriorityTasks ↔
      k' ∈ s.readyPriorityTasks ∨ k' = k ∧ (s.task k).privileged = true := by
    intro k'
    unfold State.pushReadyq
    simp only
    split
    next hflag => rw [IscList.mem_enqueue, and_iff_left hflag]
    next hflag => simp [hflag]
  refine ⟨?_, fun k' hk' => ?_, fun k' hk' hflag => ?_⟩
  · show ∃ l, IscList.Holds (if (s.task k).privileged then s.readyPriorityTasks.enqueue k else s.readyPriorityTasks) l
    split
    · exact ⟨_, hl.enqueue hpri⟩
    · exact ⟨l, hl⟩
  · obtain hk' | ⟨rfl, -⟩ := (hmem k').1 hk'
    · exact mem_append_left _ (h.sub k' hk')
    · exact mem_append_right _ (mem_singleton_self _)
  · have hflag : (s.task k').privileged = true := hflag
    obtain hk' | hk' := mem_append.1 hk'
    · exact (h.flagged k' hk' hflag).imp (fun hin => (hmem k').2 (Or.inl hin)) id
    have hkk := mem_singleton.1 hk'
    rw [hkk] at hflag
    exact .inl ((hmem k').2 (Or.inr ⟨hkk, hflag⟩))

theorem Queues.pop (h : Queues s) (hnodup : s.readyTasks.Nodup) {q : IscList K}
    (hq : s.readyPriorityTasks.dequeueLinked k = .ok q) (n : ℕ) :
    Queues { s with readyTasks := s.readyTasks.erase k, readyPriorityTasks := q, tasksRunning := n } := by
  obtain ⟨l, hl⟩ := h.holds
  obtain ⟨q', hq', hl', hmem⟩ := hl.dequeueLinked k
  cases hq'.symm.trans hq
  refine ⟨⟨_, hl'⟩, fun k' hk' => ?_, fun k' hk' hflag => ?_⟩
  · obtain ⟨hk', hne⟩ := (hmem k').1 hk'
    exact hnodup.mem_erase_iff.2 ⟨hne, h.sub k' hk'⟩
  · obtain ⟨hne, hk'⟩ := hnodup.mem_erase_iff.1 hk'
    exact (h.flagged k' hk' hflag).imp (fun hin => (hmem k').2 ⟨hin, hne⟩) id

variable [Fintype T]

theorem sum_update (f : T → ℕ) (t : T) (n : ℕ) : ∑ u, update f t n u + f t = ∑ u, f u + n := by
  rw [Finset.sum_update_of_mem (Finset.mem_univ t), ← Finset.sum_sdiff (Finset.subset_univ {t}), Finset.sum_singleton]
  omega

theorem Owned.frame (h : Owned s) (hrefs : ∀ k, (s'.task k).references = (s.task k).references) (hheld : s'.held = s.held)
    (hcall : ∀ u k, (s'.call u).keeps = some k → (s.call u).keeps = some k ∨ 0 < s.held k u) : Owned s' := by
  refine ⟨fun k => ?_, fun u k hu => ?_⟩
  · rw [hrefs k, hheld]
    exact h.refs k
  · rw [hheld]
    exact (hcall u k hu).elim (h.call u k) id

/-- A thread takes or gives up references. -/
theorem Owned.set (h : Owned s) {x : Task} {c : Call K} {n : ℕ} (htask : s'.task = update s.task k x)
    (hcall : s'.call = update s.call t c) (hheld : s'.held = update s.held k (update (s.held k) t n))
    (hrefs : x.references + s.held k t = (s.task k).references + n) (hkeeps : ∀ k', c.keeps = some k' → k' = k ∧ 0 < n) :
    Owned s' := by
  refine ⟨fun k' => ?_, fun u k' hu => ?_⟩
  · rw [htask, hheld]
    by_cases hk : k' = k
    · subst hk
      rw [update_self, update_self]
      have hsum := sum_update (s.held k') t n
      have hold := h.refs k'
      omega
    · rw [update_of_ne hk, update_of_ne hk]
      exact h.refs k'
  · rw [hcall] at hu
    rw [hheld]
    by_cases hut : u = t
    · subst hut
      rw [update_self] at hu
      obtain ⟨rfl, hn⟩ := hkeeps k' hu
      rw [update_self, update_self]
      exact hn
    rw [update_of_ne hut] at hu
    have hpos := h.call u k' hu
    by_cases hk : k' = k
    · subst hk
      rw [update_self, update_of_ne hut]
      exact hpos
    · rw [update_of_ne hk]
      exact hpos

end frame

/-! ### Steps keep it -/

section steps

variable [Fintype T] {s s' : State T K} {t : T} {k : K}

theorem Inv.init (defaultQuantum : ℕ) : Inv (init T K defaultQuantum) := by
  refine ⟨⟨nodup_nil, fun _ _ => rfl, fun k => ?_, fun k hk => ?_, fun t k ht => ?_, fun t k st ht => ?_⟩,
    fun _ => Task.free_ok, ⟨fun k => ?_, fun t k ht => ?_⟩, ⟨⟨[], IscList.holds_empty⟩, fun k hk => ?_, fun k hk => ?_⟩, ?_,
    fun l hl => ?_⟩
  · have hpend : Threads.count (isPend k) (Taskmgr.init T K defaultQuantum).view.pend = 0 :=
      Threads.count_eq_zero.2 (fun _ => rfl)
    have hhas : Threads.count (isHas k) (Taskmgr.init T K defaultQuantum).view.has = 0 :=
      Threads.count_eq_zero.2 (fun _ => rfl)
    rw [if_neg (fun h => not_mem_nil h.1)]
    unfold View.tokens
    rw [hpend, hhas]
    rfl
  · cases hk
  · cases ht
  · cases ht
  · exact (Finset.sum_const_zero).symm
  · cases ht
  · cases hk
  · cases hk
  · exact (Threads.count_eq_zero.2 (fun _ => rfl)).symm
  · cases hl

theorem Inv.nodup (h : Inv s) : s.readyTasks.Nodup := by
  rw [nodup_iff_count_le_one]
  intro k
  have hle := h.valid.count_le k
  unfold View.tokens at hle
  have hview : s.view.ready = s.readyTasks := rfl
  rw [hview] at hle
  omega

/-- A task to which somebody has a reference. -/
theorem Inv.held (h : Inv s) (hk : 0 < s.held k t) : k ∈ s.tasks ∧ 0 < (s.task k).references := by
  have hpos : 0 < (s.task k).references := by
    rw [h.owned.refs k]
    exact Finset.sum_pos' (fun _ _ => Nat.zero_le _) ⟨t, Finset.mem_univ t, hk⟩
  refine ⟨?_, hpos⟩
  by_contra hfree
  have hzero := ((h.ok k).done (h.valid.freed k hfree)).1
  omega

theorem Inv.not_ready (h : Inv s) (hstate : (s.task k).state ≠ .ready) : k ∉ s.readyTasks :=
  fun hk => hstate (h.valid.ready k hk)

theorem Inv.manager (h : Inv s) {c : Call K} (ht : (s.call t).quiet = true) (hc : c.quiet = true) (htask : s'.task = s.task)
    (htasks : s'.tasks = s.tasks) (hR : s'.readyTasks = s.readyTasks) (hP : s'.readyPriorityTasks = s.readyPriorityTasks)
    (hrunning : s'.tasksRunning = s.tasksRunning) (hwork : s'.work = s.work) (hheld : s'.held = s.held)
    (hcall : s'.call = update s.call t c) (hwalk : ∀ l, s'.walk = some l → ∀ k ∈ l, k ∈ s.tasks) : Inv s' := by
  have hview : s'.view = s.view := by
    have hset := view_setCall_same s t ((Call.pend_of_quiet hc).trans (Call.pend_of_quiet ht).symm)
    rw [← hset]
    unfold State.view State.setCall
    rw [htask, htasks, hR, hwork, hcall]
  refine ⟨by rw [hview]; exact h.valid, by rw [htask]; exact h.ok, h.owned.frame (fun k => by rw [htask]) hheld ?_,
    h.queues.frame (fun k _ hflag => Or.inl (by rwa [htask] at hflag)) hR hP ?_, by rw [hrunning, hwork]; exact h.running,
    by rw [htasks]; exact hwalk⟩
  · intro u k hu
    rw [hcall] at hu
    by_cases hut : u = t
    · subst hut
      rw [update_self, Call.keeps_of_quiet hc] at hu
      cases hu
    · rw [update_of_ne hut] at hu
      exact .inl hu
  · intro k u hu
    exact changing_setCall (changing_of_quiet ht) hcall hu

theorem Inv.pauseWait (h : Inv s) (ht : (s.call t).quiet = true) : Inv (pauseWait s t) := by
  unfold Taskmgr.pauseWait
  split
  · exact h.manager (c := .pause) ht rfl rfl rfl rfl rfl rfl rfl rfl rfl h.walk
  · exact h.manager (c := .none) ht rfl rfl rfl rfl rfl rfl rfl rfl rfl h.walk

variable {f : Task → Exec (Task × Bool)} {x : Task}

theorem Inv.section (h : Inv s) {d : ℕ} (hf : Section d f) {wasIdle : Bool}
    (hx : f (s.task k) = .ok (x, wasIdle)) (ht : (s.call t).pend = none) (hch : ∀ k, changing s k t = false)
    (hheld : 0 < s.held k t) {idle other : Call K} (hidle : idle.pend = some k) (hother : other.pend = none)
    (hle : d ≤ s.held k t) (hkeeps : ∀ k', (if wasIdle then idle else other).keeps = some k' → k' = k ∧ 0 < s.held k t - d) :
    Inv (((s.setTask k x).setCall t (if wasIdle then idle else other)).setHeld k t (s.held k t - d)) := by
  obtain ⟨hrefs, hpriv, -, hok⟩ := hf _ _ _ hx
  refine ⟨?_, ok_update h.ok (hok (h.ok k)) k, h.owned.set rfl rfl rfl ?_ hkeeps, h.queues.frame (fun k' _ hflag => ?_) rfl rfl
    (fun k' u hu => changing_setCall hch rfl hu), h.running, h.walk⟩
  · exact h.valid.moves (moves_section hf hx (h.held hheld).1 ht hidle hother)
  · omega
  · left
    have hflag : (update s.task k x k').privileged = true := hflag
    by_cases hk : k' = k
    · subst hk
      rw [update_self, hpriv] at hflag
      exact hflag
    · rw [update_of_ne hk] at hflag
      exact hflag

/-- A section that changes the queue of a task only. -/
theorem Inv.edit (h : Inv s) (hrefs : x.references = (s.task k).references)
    (hpriv : x.privileged = (s.task k).privileged) (hstate : x.state = (s.task k).state) (hx : x.Ok) : Inv (s.setTask k x) := by
  have hsame : ∀ {α : Type} (g : Task → α), g x = g (s.task k) → ∀ k', g (update s.task k x k') = g (s.task k') := by
    intro α g hg k'
    by_cases hk : k' = k
    · subst hk
      rw [update_self]
      exact hg
    · rw [update_of_ne hk]
  refine ⟨by rw [view_setTask_same s k hstate]; exact h.valid, ok_update h.ok hx k,
    h.owned.frame (hsame Task.references hrefs) rfl (fun u k' hu => Or.inl hu),
    h.queues.frame (fun k' _ hflag => Or.inl ?_) rfl rfl (fun k' u hu => hu), h.running, h.walk⟩
  exact (hsame Task.privileged hpriv k').symm.trans hflag

theorem Inv.create (h : Inv s) (quantum : ℕ) (hk : k ∉ s.tasks) (ht : (s.call t).quiet = true) :
    Inv (({ s.setTask k (.new quantum) with
      tasks := s.tasks ++ [k]
      readyPriorityTasks := s.readyPriorityTasks.initLink k } : State T K).setHeld k t 1) := by
  have hfree : (s.task k).references = 0 := ((h.ok k).done (h.valid.freed k hk)).1
  have hheld : s.held k t = 0 := by
    by_contra hne
    exact hk (h.held (Nat.pos_of_ne_zero hne)).1
  have hnot : k ∉ s.readyTasks := fun hmem => hk (h.valid.mem_of_tokens (tokens_pos_of_ready hmem)).1
  obtain ⟨l, hl⟩ := h.queues.holds
  have hpri : k ∉ s.readyPriorityTasks := fun hmem => hnot (h.queues.sub k hmem)
  refine ⟨?_, ok_update h.ok (Task.new_ok quantum) k, h.owned.set (t := t) (c := s.call t) rfl ?_ rfl ?_ (fun k' hk' => ?_),
    ⟨⟨l, hl.initLink (fun hmem => hpri (hl.mem_iff.2 hmem))⟩, fun k' hk' => h.queues.sub k' (IscList.mem_initLink.1 hk').1,
      fun k' hk' hflag => ?_⟩, h.running,
    fun l hl k' hk' => mem_append_left _ (h.walk l hl k' hk')⟩
  · have hmove := h.valid.move (Move.create k hk)
    have hview := view_setTask s k (.new quantum)
    exact (congrArg (fun v : View T K => Valid { v with tasks := s.tasks ++ [k] }) hview).mpr hmove
  · exact (update_eq_self t s.call).symm
  · rw [hfree, hheld]
    rfl
  · rw [Call.keeps_of_quiet ht] at hk'
    cases hk'
  · have hne : k' ≠ k := by
      rintro rfl
      exact hnot hk'
    have hflag : (update s.task k (Task.new quantum) k').privileged = true := hflag
    rw [update_of_ne hne] at hflag
    exact (h.queues.flagged k' hk' hflag).imp (fun hin => IscList.mem_initLink.2 ⟨hin, hne⟩) id

theorem Inv.attach (h : Inv s) (hk : 0 < s.held k t) (ht : (s.call t).quiet = true) :
    Inv ((s.setTask k { s.task k with references := (s.task k).references + 1 }).setHeld k t (s.held k t + 1)) := by
  have hdone : (s.task k).state ≠ .done := by
    intro hd
    have hzero := ((h.ok k).done hd).1
    have hpos := (h.held hk).2
    omega
  refine ⟨?_, ok_update h.ok ((h.ok k).set (h.ok k).idle (fun hd => absurd hd hdone)) k,
    h.owned.set (t := t) (c := s.call t) rfl ?_ rfl ?_ (fun k' hk' => ?_),
    h.queues.frame (fun k' hk' hflag => Or.inl ?_) rfl rfl (fun _ _ hu => hu), h.running, h.walk⟩
  · rw [view_setHeld, view_setTask_same]
    · exact h.valid
    · rfl
  · exact (update_eq_self t s.call).symm
  · show (s.task k).references + 1 + s.held k t = (s.task k).references + (s.held k t + 1)
    omega
  · rw [Call.keeps_of_quiet ht] at hk'
    cases hk'
  · have hflag : (update s.task k _ k').privileged = true := hflag
    by_cases hne : k' = k
    · subst hne
      rwa [update_self] at hflag
    · rwa [update_of_ne hne] at hflag

/-- A reference goes to another thread. -/
theorem Inv.give (h : Inv s) (u : T) (hk : 0 < s.held k t) (ht : (s.call t).quiet = true) :
    Inv ((s.setHeld k t (s.held k t - 1)).setHeld k u ((s.setHeld k t (s.held k t - 1)).held k u + 1)) := by
  have hheld : (s.setHeld k t (s.held k t - 1)).held k = update (s.held k) t (s.held k t - 1) :=
    update_self ..
  have hother : ∀ k', k' ≠ k → (s.setHeld k t (s.held k t - 1)).held k' = s.held k' :=
    fun k' hne => update_of_ne hne ..
  have hnew : ∀ n, ((s.setHeld k t (s.held k t - 1)).setHeld k u n).held k =
      update (update (s.held k) t (s.held k t - 1)) u n := by
    intro n
    rw [← hheld]
    exact update_self ..
  have hnew' : ∀ n k', k' ≠ k → ((s.setHeld k t (s.held k t - 1)).setHeld k u n).held k' = s.held k' :=
    fun n k' hne => (update_of_ne hne ..).trans (hother k' hne)
  refine ⟨h.valid, h.ok, ⟨fun k' => ?_, fun w k' hw => ?_⟩, h.queues.frame (fun _ _ hflag => Or.inl hflag) rfl rfl
    (fun _ _ hu => hu), h.running, h.walk⟩
  · by_cases hne : k' = k
    · subst hne
      rw [hnew, hheld]
      have hsum1 := sum_update (s.held k') t (s.held k' t - 1)
      have hsum2 := sum_update (update (s.held k') t (s.held k' t - 1)) u
        (update (s.held k') t (s.held k' t - 1) u + 1)
      have hold : (s.task k').references = ∑ t, s.held k' t := h.owned.refs k'
      show (s.task k').references = _
      omega
    · rw [hnew' _ k' hne]
      exact h.owned.refs k'
  · have hpos := h.owned.call w k' hw
    by_cases hne : k' = k
    · subst hne
      have hwt : w ≠ t := by
        rintro rfl
        have hw : (s.call w).keeps = some k' := hw
        rw [Call.keeps_of_quiet ht] at hw
        cases hw
      rw [hnew]
      by_cases hwu : w = u
      · subst hwu
        rw [update_self]
        exact Nat.succ_pos _
      · rw [update_of_ne hwu, update_of_ne hwt]
        exact hpos
    · rw [hnew' _ k' hne]
      exact hpos

theorem Inv.setprivilege (h : Inv s) (priv : Bool) (hk : 0 < s.held k t) (ht : (s.call t).quiet = true) :
    Inv ((s.setTask k { s.task k with privileged := priv }).setCall t (.privilege k priv)) := by
  have hchanging : ∀ {s' : State T K}, s'.call = update s.call t (.privilege k priv) → changing s' k t = true := by
    intro s' hs'
    unfold changing
    rw [hs', update_self]
    exact beq_self_eq_true k
  refine ⟨?_, ok_update h.ok ((h.ok k).set (h.ok k).idle (h.ok k).done) k, h.owned.frame (fun k' => ?_) rfl (fun u k' hu => ?_),
    h.queues.frame (fun k' hk' hflag => ?_) rfl rfl (fun k' u hu => changing_setCall (changing_of_quiet ht) rfl hu), h.running,
    h.walk⟩
  · have hpend : Call.pend (.privilege k priv) =
        ((s.setTask k { s.task k with privileged := priv }).call t).pend := (Call.pend_of_quiet ht).symm
    rw [view_setCall_same _ t hpend, view_setTask_same]
    · exact h.valid
    · rfl
  · show (update s.task k _ k').references = _
    by_cases hne : k' = k
    · subst hne
      rw [update_self]
    · rw [update_of_ne hne]
  · have hu : (update s.call t (.privilege k priv) u).keeps = some k' := hu
    by_cases hut : u = t
    · subst hut
      rw [update_self] at hu
      rw [← Option.some.inj hu]
      exact .inr hk
    · rw [update_of_ne hut] at hu
      exact .inl hu
  · by_cases hne : k' = k
    · subst hne
      exact .inr ⟨t, hchanging rfl⟩
    · have hflag : (update s.task k _ k').privileged = true := hflag
      rw [update_of_ne hne] at hflag
      exact .inl hflag

theorem Inv.ready (h : Inv s) {destroy : Bool} (hcall : s.call t = .ready k destroy) :
    Inv ((s.pushReadyq k).setCall t (if destroy then .detach k else .none)) := by
  have hpend : s.view.pend t = some k := congrArg Call.pend hcall
  have hch : ∀ k, changing s k t = false := by
    intro k
    unfold changing
    rw [hcall]
  refine ⟨?_, h.ok, h.owned.frame (fun _ => rfl) rfl (fun u k' hu => ?_),
    (h.queues.push ((h.valid.sole_pend hpend).1)).frame (fun _ _ hflag => Or.inl hflag) rfl rfl
      (fun k' u hu => changing_setCall (s := s.pushReadyq k) hch rfl hu), h.running, h.walk⟩
  · have hstate : (s.task k).state = .ready := h.valid.pend t k hpend
    have hnext : nextStep s t = .ok ((s.pushReadyq k).setCall t (if destroy then .detach k else .none)) := by
      unfold nextStep
      rw [hcall]
      simp only
      rw [hstate]
      rfl
    exact h.valid.moves (moves_next hnext (fun k' hk' => by rw [hcall] at hk'; cases hk') h.walk)
  · have hu : (update s.call t (if destroy then .detach k else .none) u).keeps = some k' := hu
    by_cases hut : u = t
    · subst hut
      rw [update_self] at hu
      cases destroy with
      | false => cases hu
      | true =>
        left
        rw [hcall]
        exact hu
    · rw [update_of_ne hut] at hu
      exact .inl hu

/-- The second section of `isc__task_setprivilege`. -/
theorem Inv.privilege (h : Inv s) {priv : Bool} (hcall : s.call t = .privilege k priv) (hpriv : privOk s t .next)
    (hnext : nextStep s t = .ok s') : Inv s' := by
  have hvalid : Valid s'.view :=
    h.valid.moves (moves_next hnext (fun k' hk' => by rw [hcall] at hk'; cases hk') h.walk)
  have hother : ∀ {u : T}, u ≠ t → (update s.call t Call.none) u = s.call u := fun hut => update_of_ne hut ..
  have hself : (update s.call t Call.none) t = Call.none := update_self ..
  have hkeeps : ∀ u k', (update s.call t Call.none u).keeps = some k' → (s.call u).keeps = some k' ∨ 0 < s.held k' u := by
    intro u k' hu
    by_cases hut : u = t
    · subst hut
      rw [hself] at hu
      cases hu
    · rw [hother hut] at hu
      exact .inl hu
  -- somebody else is still in the function, or for another task
  have hchange : ∀ {s' : State T K} {k' : K} {u : T}, s'.call = update s.call t .none → changing s k' u = true →
      k' ≠ k ∨ u ≠ t → changing s' k' u = true := by
    intro s' k' u hs' hu hne
    have hut : u ≠ t := by
      rintro rfl
      unfold changing at hu
      rw [hcall] at hu
      exact hne.elim (fun hk => hk (beq_iff_eq.1 hu).symm) (fun h => h rfl)
    unfold changing at hu ⊢
    rw [hs', hother hut]
    exact hu
  unfold nextStep at hnext
  rw [hcall] at hnext
  unfold privOk at hpriv
  simp only [hcall] at hpriv
  obtain ⟨l, hl⟩ := h.queues.holds
  have hqueues : ∀ {q}, Queues (({ s with readyPriorityTasks := q } : State T K).setCall t .none) →
      s' = ({ s with readyPriorityTasks := q } : State T K).setCall t .none → Inv s' := by
    rintro q hq rfl
    exact ⟨hvalid, h.ok, h.owned.frame (fun _ => rfl) rfl hkeeps, hq, h.running, h.walk⟩
  cases priv with
  | true =>
    cases hnext
    refine hqueues ⟨?_, fun k' hk' => ?_, fun k' hk' hflag => ?_⟩ rfl
    · show ∃ l, IscList.Holds (if k ∈ s.readyTasks then s.readyPriorityTasks.enqueue k else s.readyPriorityTasks) l
      split
      · exact ⟨_, hl.enqueue (fun hmem => hpriv (hl.mem_iff.2 hmem))⟩
      · exact ⟨l, hl⟩
    · have hk' : k' ∈ (if k ∈ s.readyTasks then s.readyPriorityTasks.enqueue k else s.readyPriorityTasks) := hk'
      split at hk'
      next hk =>
        obtain hk' | rfl := IscList.mem_enqueue.1 hk'
        · exact h.queues.sub k' hk'
        · exact hk
      · exact h.queues.sub k' hk'
    · have hk' : k' ∈ s.readyTasks := hk'
      show k' ∈ (if k ∈ s.readyTasks then s.readyPriorityTasks.enqueue k else s.readyPriorityTasks) ∨ _
      by_cases hne : k' = k
      · left
        rw [if_pos (hne ▸ hk')]
        exact IscList.mem_enqueue.2 (Or.inr hne)
      obtain hmem | ⟨u, hu⟩ := h.queues.flagged k' hk' hflag
      · left
        split
        · exact IscList.mem_enqueue.2 (Or.inl hmem)
        · exact hmem
      · exact .inr ⟨u, hchange rfl hu (Or.inl hne)⟩
  | false =>
    obtain ⟨q, hq, hnext⟩ := bind_eq_ok hnext
    cases hnext
    obtain ⟨q', hq', hl', hmem⟩ := hl.dequeueLinked k
    cases hq'.symm.trans hq
    refine hqueues ⟨⟨_, hl'⟩, fun k' hk' => h.queues.sub k' ((hmem k').1 hk').1, fun k' hk' hflag => ?_⟩ rfl
    by_cases hne : k' = k
    · subst hne
      obtain ⟨u, hut, hu⟩ := hpriv hk' hflag
      exact .inr ⟨u, hchange rfl hu (Or.inr hut)⟩
    obtain hin | ⟨u, hu⟩ := h.queues.flagged k' hk' hflag
    · exact .inl ((hmem k').2 ⟨hin, hne⟩)
    · exact .inr ⟨u, hchange rfl hu (Or.inl hne)⟩

/-- `isc__taskmgr_destroy` comes to a task. -/
theorem Inv.walk_cons (h : Inv s) {rest : List K} (hcall : s.call t = .destroying) (hwalk : s.walk = some (k :: rest))
    (hnext : nextStep s t = .ok s') : Inv s' := by
  have hvalid : Valid s'.view :=
    h.valid.moves (moves_next hnext (fun k' hk' => by rw [hcall] at hk'; cases hk') h.walk)
  unfold nextStep at hnext
  rw [hcall] at hnext
  simp only [hwalk] at hnext
  obtain ⟨⟨x, wasIdle⟩, hx, hnext⟩ := bind_eq_ok hnext
  cases hnext
  obtain ⟨hrefs, hpriv, hstate, hok⟩ := section_shutdown _ _ _ hx
  have hflags : ∀ k', (update s.task k x k').privileged = (s.task k').privileged := by
    intro k'
    by_cases hk : k' = k
    · subst hk
      rw [update_self]
      exact hpriv
    · rw [update_of_ne hk]
  have hreferences : ∀ k', (update s.task k x k').references = (s.task k').references := by
    intro k'
    by_cases hk : k' = k
    · subst hk
      rw [update_self]
      exact hrefs
    · rw [update_of_ne hk]
  have hrest : ∀ l, some rest = some l → ∀ k' ∈ l, k' ∈ s.tasks := by
    rintro _ ⟨⟩ k' hk'
    exact h.walk _ hwalk k' (mem_cons_of_mem k hk')
  have hqueues : Queues ({ s.setTask k x with walk := some rest } : State T K) :=
    h.queues.frame (fun k' _ hflag => Or.inl ((hflags k').symm.trans hflag)) rfl rfl (fun _ _ hu => hu)
  cases wasIdle with
  | false =>
    exact ⟨hvalid, ok_update h.ok (hok (h.ok k)) k, h.owned.frame hreferences rfl (fun _ _ hu => Or.inl hu), hqueues,
      h.running, hrest⟩
  | true =>
    have hnot : k ∉ s.readyTasks := by
      refine h.not_ready ?_
      rw [hstate.1]
      exact TaskState.noConfusion
    exact ⟨hvalid, ok_update h.ok (hok (h.ok k)) k, h.owned.frame hreferences rfl (fun _ _ hu => Or.inl hu),
      hqueues.push hnot, h.running, hrest⟩

theorem Inv.next (h : Inv s) (hcall : (s.call t) ≠ .none) (hpriv : privOk s t .next) (hnext : nextStep s t = .ok s') :
    Inv s' := by
  cases hc : s.call t with
  | none => exact absurd hc hcall
  | ready k destroy =>
    unfold nextStep at hnext
    rw [hc] at hnext
    obtain ⟨_, -, hnext⟩ := bind_eq_ok hnext
    cases hnext
    exact h.ready hc
  | detach k =>
    unfold nextStep at hnext
    rw [hc] at hnext
    obtain ⟨x, wasIdle, hx, rfl⟩ := detachStep_ok hnext
    have hheld : 0 < s.held k t := h.owned.call t k (by rw [hc]; rfl)
    refine h.section section_detach hx (by rw [hc]; rfl) (fun k' => ?_) hheld rfl rfl hheld (fun k' hk' => ?_)
    · unfold changing
      rw [hc]
    · cases wasIdle <;> cases hk'
  | privilege k priv => exact h.privilege hc hpriv hnext
  | exclusive =>
    unfold nextStep at hnext
    rw [hc] at hnext
    cases hnext
    refine h.manager (t := t) (by rw [hc]; rfl) ?_ rfl rfl rfl rfl rfl rfl rfl rfl h.walk
    split <;> rfl
  | pause =>
    unfold nextStep at hnext
    rw [hc] at hnext
    cases hnext
    exact h.pauseWait (by rw [hc]; rfl)
  | destroying =>
    cases hw : s.walk with
    | none =>
      unfold nextStep at hnext
      rw [hc] at hnext
      simp only [hw] at hnext
      cases hnext
      exact h.manager (t := t) (c := .none) (by rw [hc]; rfl) rfl rfl rfl rfl rfl rfl rfl rfl rfl (fun l hl => by cases hl)
    | some l =>
      cases l with
      | nil =>
        unfold nextStep at hnext
        rw [hc] at hnext
        simp only [hw] at hnext
        cases hnext
        exact h.manager (t := t) (c := .none) (by rw [hc]; rfl) rfl rfl rfl rfl rfl rfl rfl rfl rfl (fun l hl => by cases hl)
      | cons k rest => exact h.walk_cons hc hw hnext

/-! ### Workers -/

theorem Inv.setWork (h : Inv s) {w : Work K} (ht : (s.work t).busy = false) (hw : w.busy = false) : Inv (s.setWork t w) := by
  refine ⟨?_, h.ok, h.owned.frame (fun _ => rfl) rfl (fun _ _ hu => Or.inl hu),
    h.queues.frame (fun _ _ hflag => Or.inl hflag) rfl rfl (fun _ _ hu => hu), ?_, h.walk⟩
  · rw [view_setWork_same s t ((Work.has_of_not_busy hw).trans (Work.has_of_not_busy ht).symm)]
    exact h.valid
  · have hcount := Threads.count_update Work.busy s.work t w
    rw [ht, hw] at hcount
    exact h.running.trans (Nat.add_right_cancel hcount).symm

theorem Inv.dropMode (h : Inv s) : Inv s.dropMode := by
  unfold State.dropMode
  split
  · exact ⟨h.valid, h.ok, ⟨h.owned.refs, h.owned.call⟩, ⟨h.queues.holds, h.queues.sub, h.queues.flagged⟩, h.running, h.walk⟩
  · exact h

theorem Inv.turn (h : Inv s) {turn : Turn K} (ht : (s.work t).busy = false) (hturn : s.turn t turn = .ok s') : Inv s' := by
  have hvalid : Valid s'.view := h.valid.moves (moves_turn (Work.has_of_not_busy ht) hturn)
  cases turn with
  | wait =>
    cases hturn
    exact h.setWork ht rfl
  | exit drop =>
    cases hturn
    cases drop with
    | false => exact h.setWork ht rfl
    | true =>
      refine h.dropMode.setWork ?_ rfl
      rw [(dropMode_same s).2.2.2.1]
      exact ht
  | pop k =>
    obtain ⟨-, q, hq, rfl⟩ := turn_pop_ok hturn
    refine ⟨hvalid, h.ok, h.owned.frame (fun _ => rfl) rfl (fun _ _ hu => Or.inl hu),
      (h.queues.pop h.nodup hq (s.tasksRunning + 1)).frame (fun _ _ hflag => Or.inl hflag) rfl rfl (fun _ _ hu => hu), ?_, h.walk⟩
    have hcount := Threads.count_update Work.busy s.work t (.popped k)
    rw [ht] at hcount
    have hold := h.running
    have hone : (Work.popped k).busy.toNat = 1 := rfl
    have hzero : false.toNat = 0 := rfl
    show s.tasksRunning + 1 = Threads.count Work.busy (update s.work t (.popped k))
    omega

/-- A worker finds the task that it pops in both lists as they are to be. -/
theorem Inv.turn_total (h : Inv s) {turn : Turn K} (hpop : ∀ k, turn = .pop k → s.readyq = some k) :
    ∃ s', s.turn t turn = .ok s' := by
  cases turn with
  | wait | exit => exact ⟨_, rfl⟩
  | pop k =>
    obtain ⟨l, hl⟩ := h.queues.holds
    obtain ⟨q, hq, -⟩ := hl.dequeueLinked k
    rw [turn_pop]
    unfold State.popReadyq
    rw [if_pos (mem_readyTasks_of_readyq hl h.queues.sub (hpop k rfl)), hq]
    exact ⟨_, rfl⟩

theorem Inv.requeued (h : Inv s) {requeue : Option K} (ht : s.work t = .ending requeue) : Inv (requeued s t requeue) := by
  have hvalid : Valid (Taskmgr.requeued s t requeue).view := h.valid.moves (moves_requeued ht)
  have hpos : s.tasksRunning - 1 = Threads.count Work.busy (update s.work t .start) := by
    have hcount := Threads.count_update Work.busy s.work t .start
    rw [ht] at hcount
    have hold := h.running
    have hone : (Work.ending requeue).busy.toNat = 1 := rfl
    have hzero : (Work.start : Work K).busy.toNat = 0 := rfl
    omega
  have hinv : ∀ s1 : State T K, s1.task = s.task → s1.tasks = s.tasks → s1.held = s.held → s1.call = s.call →
      s1.work = s.work → s1.walk = s.walk → s1.tasksRunning = s.tasksRunning - 1 → Queues s1 →
      Valid (s1.dropMode.setWork t .start).view → Inv (s1.dropMode.setWork t .start) := by
    intro s1 htask htasks hheld hcall hwork hwalk hrunning hqueues hv
    have hdrop : Inv (s1.setWork t .start) := by
      refine ⟨?_, by rw [show (s1.setWork t .start).task = s.task from htask]; exact h.ok,
        h.owned.frame (fun k => ?_) hheld (fun u k hu => ?_), hqueues.frame (fun _ _ hflag => Or.inl hflag) rfl rfl (fun _ _ hu => hu),
        ?_, ?_⟩
      · have hview : (s1.dropMode.setWork t .start).view = (s1.setWork t .start).view := by
          rw [view_setWork, view_setWork, (dropMode_same s1).2.2.1]
        rw [← hview]
        exact hv
      · show (s1.task k).references = _
        rw [htask]
      · have hu : (s1.call u).keeps = some k := hu
        rw [hcall] at hu
        exact .inl hu
      · show s1.tasksRunning = Threads.count Work.busy (update s1.work t .start)
        rw [hrunning, hwork]
        exact hpos
      · show ∀ l, s1.walk = some l → ∀ k ∈ l, k ∈ s1.tasks
        rw [hwalk, htasks]
        exact h.walk
    have hcomm : s1.dropMode.setWork t .start = (s1.setWork t .start).dropMode := (dropMode_setWork s1 t .start).symm
    rw [hcomm]
    exact hdrop.dropMode
  cases requeue with
  | none => exact hinv _ rfl rfl rfl rfl rfl rfl rfl ⟨h.queues.holds, h.queues.sub, h.queues.flagged⟩ hvalid
  | some k =>
    have hhas : s.view.has t = some (k, .ready) := congrArg Work.has ht
    have hqueues : Queues ({ s with tasksRunning := s.tasksRunning - 1 } : State T K) :=
      ⟨h.queues.holds, h.queues.sub, h.queues.flagged⟩
    exact hinv _ rfl rfl rfl rfl rfl rfl rfl (hqueues.push (h.valid.sole hhas).1) hvalid

/-- A worker has worked on its task. -/
theorem Inv.run (h : Inv s) {next : Next} {st : TaskState} {n : ℕ} (ht : (s.work t).has = some (k, st))
    (hspec : x.references = (s.task k).references ∧ x.privileged = (s.task k).privileged ∧ x.state = next.state ∧
      ((s.task k).Ok → x.Ok)) : Inv ((s.setTask k x).setWork t (next.work k n)) := by
  obtain ⟨hrefs, hpriv, hstate, hok⟩ := hspec
  have hsame : ∀ {α : Type} (g : Task → α), g x = g (s.task k) → ∀ k', g (update s.task k x k') = g (s.task k') := by
    intro α g hg k'
    by_cases hk : k' = k
    · subst hk
      rw [update_self]
      exact hg
    · rw [update_of_ne hk]
  refine ⟨h.valid.moves (moves_run ht hstate), ok_update h.ok (hok (h.ok k)) k,
    h.owned.frame (hsame Task.references hrefs) rfl (fun _ _ hu => Or.inl hu),
    h.queues.frame (fun k' _ hflag => Or.inl ((hsame Task.privileged hpriv k').symm.trans hflag)) rfl rfl (fun _ _ hu => hu), ?_,
    h.walk⟩
  have hbusy : (s.work t).busy = true := by
    cases hb : (s.work t).busy with
    | true => rfl
    | false =>
      rw [Work.has_of_not_busy hb] at ht
      cases ht
  have hbusy' : (next.work k n).busy = true := by
    cases next <;> rfl
  have hcount := Threads.count_update Work.busy s.work t (next.work k n)
  rw [hbusy, hbusy'] at hcount
  exact h.running.trans (Nat.add_right_cancel hcount).symm

/-- `task_finished`. -/
theorem Inv.free (h : Inv s) (ht : s.work t = .finished k) (hwalk : s.walk = none) :
    Inv (({ s with tasks := s.tasks.erase k } : State T K).setWork t (.ending none)) := by
  have hhas : s.view.has t = some (k, .done) := congrArg Work.has ht
  refine ⟨?_, h.ok, h.owned.frame (fun _ => rfl) rfl (fun _ _ hu => Or.inl hu),
    h.queues.frame (fun _ _ hflag => Or.inl hflag) rfl rfl (fun _ _ hu => hu), ?_, fun l hl => ?_⟩
  · rw [view_setWork]
    exact h.valid.move (Move.free t k hhas)
  · have hcount := Threads.count_update Work.busy s.work t (.ending none)
    rw [ht] at hcount
    exact h.running.trans (Nat.add_right_cancel hcount).symm
  · cases hwalk.symm.trans hl

theorem Inv.work (h : Inv s) (hwalk : ∀ k, s.work t = .finished k → s.walk = none) (hstep : workStep s t = .ok s') :
    Inv s' := by
  unfold workStep at hstep
  cases hw : s.work t with
  | outside | exited =>
    rw [hw] at hstep
    cases hstep
    exact h
  | start | waiting =>
    rw [hw] at hstep
    exact h.turn (by rw [hw]; rfl) hstep
  | popped k =>
    rw [hw] at hstep
    obtain ⟨⟨x, next⟩, hx, hstep⟩ := bind_eq_ok hstep
    cases hstep
    exact h.run (congrArg Work.has hw) (taskBegin_spec hx)
  | acting k n =>
    rw [hw] at hstep
    obtain ⟨⟨x, next⟩, hx, hstep⟩ := bind_eq_ok hstep
    cases hstep
    have hrun : (s.task k).state = .running := h.valid.has t k _ (congrArg Work.has hw)
    exact h.run (congrArg Work.has hw) (taskTail_spec hx hrun)
  | finished k =>
    rw [hw] at hstep
    obtain ⟨s1, h1, hstep⟩ := bind_eq_ok hstep
    cases hstep
    obtain ⟨_, -, h1⟩ := bind_eq_ok h1
    cases h1
    exact h.free hw (hwalk k hw)
  | ending requeue =>
    rw [hw] at hstep
    have hstep : s.dispatchEnd t requeue = .ok s' := hstep
    rw [dispatchEnd_eq] at hstep
    refine (h.requeued hw).turn ?_ hstep
    have hstart : (Taskmgr.requeued s t requeue).work t = .start := update_self ..
    rw [hstart]
    rfl

/-! ### The steps -/

section

omit [DecidableEq T] [Fintype T]

theorem mayCall_iff : mayCall s t = true ↔ s.call t = .none ∧ (s.work t = .outside ∨ ∃ k n, s.work t = .acting k n) := by
  unfold mayCall
  rw [and_eq_true, beq_iff_eq]
  apply and_congr_right
  intro _
  cases s.work t with
  | outside => exact ⟨fun _ => Or.inl rfl, fun _ => rfl⟩
  | acting k n => exact ⟨fun _ => Or.inr ⟨k, n, rfl⟩, fun _ => rfl⟩
  | start | waiting | popped | finished | ending | exited =>
    constructor
    · intro h
      cases h
    · rintro (h | ⟨k, n, h⟩) <;> cases h

theorem quiet_of_mayCall (h : mayCall s t = true) : (s.call t).quiet = true := by
  rw [(mayCall_iff.1 h).1]
  rfl

theorem isActing_iff : isActing s t k = true ↔ ∃ n, s.work t = .acting k n := by
  unfold isActing
  cases s.work t with
  | acting k' n =>
    rw [beq_iff_eq]
    constructor
    · rintro rfl
      exact ⟨n, rfl⟩
    · rintro ⟨m, h⟩
      cases h
      rfl
  | outside | start | waiting | popped | finished | ending | exited =>
    constructor
    · intro h
      cases h
    · rintro ⟨n, h⟩
      cases h

end

theorem Inv.onTask (h : Inv s) (hf : Section 0 f) {idle other : Call K}
    (hidle : idle.pend = some k) (hother : other.pend = none) (hkeeps : ∀ c k', c = idle ∨ c = other → c.keeps = some k' → k' = k)
    (ht : mayCall s t = true) (hheld : 0 < s.held k t) (hstep : onTask s t k f idle other = .ok s') : Inv s' := by
  obtain ⟨x, wasIdle, hx, rfl⟩ := onTask_ok hstep
  have hquiet := quiet_of_mayCall ht
  have hinv := h.section hf hx (Call.pend_of_quiet hquiet) (changing_of_quiet hquiet) hheld hidle hother (Nat.zero_le _)
    (fun k' hk' => ⟨hkeeps _ k' (by cases wasIdle <;> simp) hk', hheld⟩)
  have hsame : ((s.setTask k x).setCall t (if wasIdle then idle else other)).setHeld k t (s.held k t - 0) =
      (s.setTask k x).setCall t (if wasIdle then idle else other) := by
    unfold State.setHeld
    have hself : update s.held k (update (s.held k) t (s.held k t - 0)) = s.held := by
      rw [Nat.sub_zero, update_eq_self, update_eq_self]
    exact congrArg (fun f => { (s.setTask k x).setCall t (if wasIdle then idle else other) with held := f }) hself
  rwa [hsame] at hinv

theorem Inv.detachStep (h : Inv s) (hf : Section 1 f) (ht : mayCall s t = true)
    (hheld : 0 < s.held k t) (hstep : detachStep s t k f = .ok s') : Inv s' := by
  obtain ⟨x, wasIdle, hx, rfl⟩ := detachStep_ok hstep
  have hquiet := quiet_of_mayCall ht
  refine h.section hf hx (Call.pend_of_quiet hquiet) (changing_of_quiet hquiet) hheld rfl rfl hheld (fun k' hk' => ?_)
  cases wasIdle <;> cases hk'

theorem Inv.step (h : Inv s) {a : Action T K} (hp : permitted s t a = true) (hpriv : privOk s t a)
    (hstep : step s t a = .ok s') : Inv s' := by
  unfold Taskmgr.step at hstep
  cases a with
  | create k quantum =>
    simp only [permitted, and_eq_true] at hp
    simp only at hstep
    split at hstep
    · cases hstep
      exact h
    cases hstep
    refine h.create _ (fun hk => ?_) (quiet_of_mayCall hp.1.1)
    have hnot := hp.2
    rw [contains_iff_mem.2 hk] at hnot
    cases hnot
  | attach k =>
    simp only [permitted, and_eq_true, decide_eq_true_eq] at hp
    cases hstep
    exact h.attach hp.2 (quiet_of_mayCall hp.1)
  | detach k =>
    simp only [permitted, and_eq_true, decide_eq_true_eq] at hp
    exact h.detachStep section_detach hp.1 hp.2 hstep
  | send k event =>
    simp only [permitted, and_eq_true, decide_eq_true_eq] at hp
    refine h.onTask (section_send event) rfl rfl ?_ hp.1.1 hp.1.2 hstep
    rintro _ _ (rfl | rfl) hk' <;> cases hk'
  | sendanddetach k event =>
    simp only [permitted, and_eq_true, decide_eq_true_eq] at hp
    exact h.detachStep (section_sendanddetach event) hp.1.1 hp.1.2 hstep
  | purgerange k sender first last tag | unsendrange k sender first last tag =>
    cases hstep
    exact h.edit rfl rfl rfl ((h.ok k).remove _)
  | purgeevent k event =>
    cases hstep
    obtain ⟨hrefs, hflag, hstate⟩ := taskPurgeevent_spec event (s.task k)
    exact h.edit hrefs hflag hstate ((h.ok k).purgeevent event)
  | onshutdown k event =>
    cases hstep
    obtain ⟨hrefs, hflag, hstate⟩ := taskOnshutdown_spec event (s.task k)
    exact h.edit hrefs hflag hstate ((h.ok k).onshutdown event)
  | shutdown k =>
    simp only [permitted, and_eq_true, decide_eq_true_eq] at hp
    refine h.onTask section_shutdown rfl rfl ?_ hp.1 hp.2 hstep
    rintro _ _ (rfl | rfl) hk' <;> cases hk'
  | destroy k =>
    simp only [permitted, and_eq_true, decide_eq_true_eq] at hp
    refine h.onTask section_shutdown rfl rfl ?_ hp.1 hp.2 hstep
    rintro _ _ (rfl | rfl) hk'
    · exact (Option.some.inj hk').symm
    · exact (Option.some.inj hk').symm
  | beginexclusive k =>
    simp only [permitted, and_eq_true] at hp
    obtain ⟨_, -, hstep⟩ := bind_eq_ok hstep
    cases hstep
    split
    · exact h
    · refine h.manager (t := t) (quiet_of_mayCall hp.1.1) ?_ rfl rfl rfl rfl rfl rfl rfl rfl h.walk
      split <;> rfl
  | endexclusive k =>
    simp only [permitted, and_eq_true] at hp
    obtain ⟨_, -, hstep⟩ := bind_eq_ok hstep
    obtain ⟨_, -, hstep⟩ := bind_eq_ok hstep
    cases hstep
    have hquiet := quiet_of_mayCall hp.1.1.1
    exact h.manager hquiet hquiet rfl rfl rfl rfl rfl rfl rfl (update_eq_self t s.call).symm h.walk
  | pause =>
    simp only [permitted, and_eq_true] at hp
    cases hstep
    exact h.pauseWait (quiet_of_mayCall hp.1)
  | resume | setmode mode =>
    simp only [permitted, and_eq_true] at hp
    cases hstep
    have hquiet := quiet_of_mayCall hp.1
    exact h.manager hquiet hquiet rfl rfl rfl rfl rfl rfl rfl (update_eq_self t s.call).symm h.walk
  | setprivilege k priv =>
    simp only [permitted, and_eq_true, decide_eq_true_eq] at hp
    cases hstep
    split
    next hsame => exact h.edit rfl hsame.symm rfl ((h.ok k).set (h.ok k).idle (h.ok k).done)
    · exact h.setprivilege priv hp.2 (quiet_of_mayCall hp.1)
  | taskmgrDestroy =>
    simp only [permitted, and_eq_true, beq_iff_eq] at hp
    obtain ⟨_, -, hstep⟩ := bind_eq_ok hstep
    cases hstep
    refine h.manager (t := t) (c := .destroying) (by rw [hp.1.1.1]; rfl) rfl rfl rfl rfl rfl rfl rfl rfl rfl ?_
    rintro _ ⟨⟩ k hk
    exact hk
  | dispatch =>
    simp only [permitted, and_eq_true, beq_iff_eq] at hp
    cases hstep
    exact h.setWork (by rw [hp.2]; rfl) rfl
  | give u k =>
    simp only [permitted, and_eq_true, decide_eq_true_eq] at hp
    cases hstep
    exact h.give u hp.2 (quiet_of_mayCall hp.1)
  | next =>
    refine h.next (fun hcall => ?_) hpriv hstep
    simp only [permitted, hcall] at hp
    cases hp
  | work =>
    refine h.work (fun k hk => ?_) hstep
    simp only [permitted, hk, and_eq_true] at hp
    exact Option.isNone_iff_eq_none.1 hp.2

theorem Reach.inv {defaultQuantum : ℕ} (h : Reach privOk defaultQuantum s) : Inv s := by
  induction h with
  | init => exact Inv.init defaultQuantum
  | step _ hp hpriv hstep ih => exact ih.step hp hpriv hstep

/-- No assertion of a section fails. -/
theorem Inv.total (h : Inv s) {a : Action T K} (hp : permitted s t a = true) : ∃ s', Taskmgr.step s t a = .ok s' := by
  unfold Taskmgr.step
  cases a with
  | create k quantum =>
    simp only
    split <;> exact ⟨_, rfl⟩
  | attach | purgerange | purgeevent | unsendrange | onshutdown | pause | resume | setprivilege | setmode | dispatch | give =>
    exact ⟨_, rfl⟩
  | detach k =>
    simp only [permitted, and_eq_true, decide_eq_true_eq] at hp
    exact detachStep_total (taskDetach_total (h.ok k) (h.held hp.2).2)
  | send k event =>
    simp only [permitted, and_eq_true, decide_eq_true_eq] at hp
    exact onTask_total (taskSend_total (h.ok k) (h.held hp.1.2).2 hp.2)
  | sendanddetach k event =>
    simp only [permitted, and_eq_true, decide_eq_true_eq] at hp
    exact detachStep_total (taskSendanddetach_total (h.ok k) (h.held hp.1.2).2 hp.2)
  | shutdown k | destroy k => exact onTask_total (taskShutdown_total (h.ok k))
  | beginexclusive k =>
    simp only [permitted, and_eq_true] at hp
    obtain ⟨n, hn⟩ := isActing_iff.1 hp.2
    have hrun : (s.task k).state = .running := h.valid.has t k _ (congrArg Work.has hn)
    simp only [hrun]
    exact ⟨_, rfl⟩
  | endexclusive k =>
    simp only [permitted, and_eq_true] at hp
    obtain ⟨n, hn⟩ := isActing_iff.1 hp.1.2
    have hrun : (s.task k).state = .running := h.valid.has t k _ (congrArg Work.has hn)
    simp only [hrun, hp.2]
    exact ⟨_, rfl⟩
  | taskmgrDestroy =>
    simp only [permitted, and_eq_true] at hp
    simp only [hp.2]
    exact ⟨_, rfl⟩
  | next =>
    unfold nextStep
    cases hc : s.call t with
    | none | exclusive | pause => exact ⟨_, rfl⟩
    | privilege k priv =>
      cases priv with
      | true => exact ⟨_, rfl⟩
      | false =>
        obtain ⟨l, hl⟩ := h.queues.holds
        obtain ⟨q, hq, -⟩ := hl.dequeueLinked k
        simp only [hq]
        exact ⟨_, rfl⟩
    | ready k destroy =>
      have hready : (s.task k).state = .ready := h.valid.pend t k (congrArg Call.pend hc)
      simp only [hready]
      exact ⟨_, rfl⟩
    | detach k =>
      have hheld : 0 < s.held k t := h.owned.call t k (by rw [hc]; rfl)
      exact detachStep_total (taskDetach_total (h.ok k) (h.held hheld).2)
    | destroying =>
      simp only
      split
      next k rest hw =>
        obtain ⟨⟨x, wasIdle⟩, hx⟩ := taskShutdown_total (h.ok k)
        simp only [hx]
        exact ⟨_, rfl⟩
      · exact ⟨_, rfl⟩
  | work =>
    unfold workStep
    cases hw : s.work t with
    | outside | exited => exact ⟨_, rfl⟩
    | start => exact h.turn_total (fun _ hk => outerTurn_pop hk)
    | waiting => exact h.turn_total (fun _ hk => innerTurn_pop hk)
    | ending requeue =>
      show ∃ s', s.dispatchEnd t requeue = .ok s'
      rw [dispatchEnd_eq]
      exact (h.requeued hw).turn_total (fun _ hk => outerTurn_pop hk)
    | popped k =>
      obtain ⟨⟨x, next⟩, hx⟩ := taskBegin_total (h.ok k) (h.valid.has t k _ (congrArg Work.has hw))
      simp only [hx]
      exact ⟨_, rfl⟩
    | acting k n =>
      obtain ⟨⟨x, next⟩, hx⟩ := taskTail_total (n + 1) (h.ok k) (h.valid.has t k _ (congrArg Work.has hw))
      simp only [hx]
      exact ⟨_, rfl⟩
    | finished k =>
      have hdone : (s.task k).state = .done := h.valid.has t k _ (congrArg Work.has hw)
      obtain ⟨hrefs, hevents, hshut⟩ := (h.ok k).done hdone
      have honshutdown := (h.ok k).shut hshut
      simp only [State.taskFinished, hdone, hrefs, hevents, honshutdown]
      exact ⟨_, rfl⟩

end steps

/-! ### Nothing is lost, repeated or overlaps -/

/-- A thread is about to put the task into `ready_tasks`. -/
def queueing (s : State T K) (k : K) (t : T) : Prop :=
  (∃ destroy, s.call t = .ready k destroy) ∨ s.work t = .ending (some k)

section safety

variable [Fintype T] {s : State T K} {k : K}

section

omit [DecidableEq T] [DecidableEq K] [Fintype T]

theorem pend_iff {t : T} : s.view.pend t = some k ↔ ∃ destroy, s.call t = .ready k destroy := by
  show (s.call t).pend = some k ↔ _
  cases s.call t with
  | ready k' destroy =>
    constructor
    · intro h
      cases h
      exact ⟨destroy, rfl⟩
    · rintro ⟨d, h⟩
      cases h
      rfl
  | none | detach | privilege | exclusive | pause | destroying =>
    constructor
    · intro h
      cases h
    · rintro ⟨d, h⟩
      cases h

theorem has_ready_iff {t : T} : s.view.has t = some (k, .ready) ↔ s.work t = .popped k ∨ s.work t = .ending (some k) := by
  show (s.work t).has = some (k, .ready) ↔ _
  cases s.work t with
  | popped k' =>
    constructor
    · intro h
      cases h
      exact .inl rfl
    · rintro (h | h) <;> cases h
      rfl
  | ending requeue =>
    cases requeue with
    | none =>
      constructor
      · intro h
        cases h
      · rintro (h | h) <;> cases h
    | some k' =>
      constructor
      · intro h
        cases h
        exact .inr rfl
      · rintro (h | h) <;> cases h
        rfl
  | outside | start | waiting | acting | finished | exited =>
    constructor
    · intro h
      cases h
    · rintro (h | h) <;> cases h

end

theorem Inv.ready_with (h : Inv s) (hk : k ∈ s.tasks) (hready : (s.task k).state = .ready) :
    (k ∈ s.readyTasks ∧ (∀ t, ¬ queueing s k t) ∧ ∀ t, s.work t ≠ .popped k) ∨
    (k ∉ s.readyTasks ∧ (∃! t, queueing s k t) ∧ ∀ t, s.work t ≠ .popped k) ∨
    (k ∉ s.readyTasks ∧ (∀ t, ¬ queueing s k t) ∧ ∃! t, s.work t = .popped k) := by
  have hone : s.view.tokens k = 1 := by
    rw [h.valid.count k, if_pos]
    refine ⟨hk, ?_⟩
    show (s.task k).state ≠ .idle
    rw [hready]
    exact TaskState.noConfusion
  have hstate : ∀ {t st}, s.view.has t = some (k, st) → st = .ready := by
    intro t st ht
    exact (h.valid.has t k st ht).symm.trans hready
  by_cases hmem : k ∈ s.readyTasks
  · left
    have hnobody := h.valid.sole_ready hmem
    refine ⟨hmem, fun t ht => ?_, fun t ht => hnobody.2 t _ (has_ready_iff.2 (Or.inl ht))⟩
    exact ht.elim (fun hc => hnobody.1 t (pend_iff.2 hc)) (fun hw => hnobody.2 t _ (has_ready_iff.2 (Or.inr hw)))
  right
  by_cases hpend : ∃ t, s.view.pend t = some k
  · left
    obtain ⟨t, ht⟩ := hpend
    obtain ⟨-, hpends, hhas⟩ := h.valid.sole_pend ht
    refine ⟨hmem, ⟨t, Or.inl (pend_iff.1 ht), fun u hu => ?_⟩, fun u hu => hhas u _ (has_ready_iff.2 (Or.inl hu))⟩
    obtain hu | hu := hu
    · by_contra hut
      exact hpends u hut (pend_iff.2 hu)
    · exact absurd (has_ready_iff.2 (Or.inr hu)) (hhas u _)
  obtain ⟨t, st, ht⟩ := has_of_tokens hone hmem hpend
  have hst := hstate ht
  subst hst
  obtain ⟨-, -, hhas⟩ := h.valid.sole ht
  have honly : ∀ u, s.view.has u = some (k, .ready) → u = t := by
    intro u hu
    by_contra hut
    exact hhas u _ hut hu
  obtain hw | hw := has_ready_iff.1 ht
  · right
    refine ⟨hmem, fun u hu => ?_, ⟨t, hw, fun u hu => honly u (has_ready_iff.2 (Or.inl hu))⟩⟩
    obtain hu | hu := hu
    · exact hpend ⟨u, pend_iff.2 hu⟩
    have hut := honly u (has_ready_iff.2 (Or.inr hu))
    subst hut
    cases hw.symm.trans hu
  left
  refine ⟨hmem, ⟨t, Or.inr hw, fun u hu => ?_⟩, fun u hu => ?_⟩
  · obtain hu | hu := hu
    · exact absurd ⟨u, pend_iff.2 hu⟩ hpend
    · exact honly u (has_ready_iff.2 (Or.inr hu))
  · have hut := honly u (has_ready_iff.2 (Or.inl hu))
    subst hut
    cases hw.symm.trans hu

theorem Inv.freed (h : Inv s) (hk : k ∉ s.tasks) :
    (s.task k).state = .done ∧ (s.task k).references = 0 ∧ (s.task k).events = [] ∧ (s.task k).onShutdown = [] ∧
    k ∉ s.readyTasks ∧ k ∉ s.readyPriorityTasks ∧ (∀ l, s.walk = some l → k ∉ l) ∧
    ∀ t, s.held k t = 0 ∧ (s.call t).pend ≠ some k ∧ (s.call t).keeps ≠ some k ∧ ∀ st, (s.work t).has ≠ some (k, st) := by
  have hdone := h.valid.freed k hk
  obtain ⟨hrefs, hevents, hshut⟩ := (h.ok k).done hdone
  have hzero : s.view.tokens k = 0 := by
    rw [h.valid.count k, if_neg]
    exact fun hmem => hk hmem.1
  obtain ⟨hready, hpend, hhas⟩ := nobody hzero
  have hheld : ∀ t, s.held k t = 0 := by
    intro t
    by_contra hne
    exact hk (h.held (Nat.pos_of_ne_zero hne)).1
  refine ⟨hdone, hrefs, hevents, (h.ok k).shut hshut, hready, fun hmem => hready (h.queues.sub k hmem),
    fun l hl hmem => hk (h.walk l hl k hmem), fun t => ⟨hheld t, hpend t, fun hkeeps => ?_, hhas t⟩⟩
  have hpos := h.owned.call t k hkeeps
  rw [hheld t] at hpos
  exact Nat.lt_irrefl 0 hpos

/-- In every run: a task is with one worker at most; it is once in `ready_tasks`, and when it is ready it is there, or comes
there by one thread, or was popped; the events of a task are executed in their order, each once, unless they are purged; the
events for its shutdown are posted once, last registered first; a task that was freed is known to nobody; and no assertion
fails. -/
theorem taskmgr_loses_nothing {defaultQuantum : ℕ} (h : Reach privOk defaultQuantum s) :
    (∀ k t u st st', (s.work t).has = some (k, st) → (s.work u).has = some (k, st') → t = u) ∧
    (∀ k t st, (s.work t).has = some (k, st) → (s.task k).state = st) ∧
    s.readyTasks.Nodup ∧ (∀ k ∈ s.readyTasks, (s.task k).state = .ready) ∧ (∀ k ∈ s.tasks, (s.task k).state = .ready →
      (k ∈ s.readyTasks ∧ (∀ t, ¬ queueing s k t) ∧ ∀ t, s.work t ≠ .popped k) ∨
      (k ∉ s.readyTasks ∧ (∃! t, queueing s k t) ∧ ∀ t, s.work t ≠ .popped k) ∨
      (k ∉ s.readyTasks ∧ (∀ t, ¬ queueing s k t) ∧ ∃! t, s.work t = .popped k)) ∧
    (∀ k, (s.task k).state = .idle → (s.task k).events = []) ∧
    (∀ k, ((s.task k).executed ++ (s.task k).events).Sublist (s.task k).posted ∧
      (s.task k).posted.Perm ((s.task k).executed ++ (s.task k).events ++ (s.task k).dropped) ∧
      ((s.task k).shuttingDown = false → (s.task k).posted = (s.task k).sent) ∧
      ((s.task k).shuttingDown = true → ∃ a b, (s.task k).sent = a ++ b ∧
        (s.task k).posted = a ++ (s.task k).registered.reverse ++ b)) ∧
    (∀ k, k ∉ s.tasks → (s.task k).state = .done ∧ (s.task k).references = 0 ∧ (s.task k).events = [] ∧
      (s.task k).onShutdown = [] ∧ k ∉ s.readyTasks ∧ k ∉ s.readyPriorityTasks ∧ (∀ l, s.walk = some l → k ∉ l) ∧
      ∀ t, s.held k t = 0 ∧ (s.call t).pend ≠ some k ∧ (s.call t).keeps ≠ some k ∧ ∀ st, (s.work t).has ≠ some (k, st)) ∧
    ∀ t a, permitted s t a = true → ∃ s', step s t a = .ok s' := by
  have hinv := h.inv
  refine ⟨fun k t u st st' ht hu => ?_, fun k t st ht => hinv.valid.has t k st ht, hinv.nodup, hinv.valid.ready,
    fun k => hinv.ready_with, fun k => (hinv.ok k).idle,
    fun k => ⟨(hinv.ok k).order, (hinv.ok k).all, fun hs => ((hinv.ok k).before hs).2, (hinv.ok k).behind⟩,
    fun k => hinv.freed, fun t a => hinv.total⟩
  by_contra hut
  exact (hinv.valid.sole ht).2.2 u st' (fun hne => hut hne.symm) hu

end safety

/-! ### Runs that are given by their steps -/

/-- The state behind steps that are permitted and pass a test. -/
def trace (check : State T K → T → Action T K → Bool) (s : State T K) : List (T × Action T K) → Option (State T K)
  | [] => some s
  | (t, a) :: rest =>
    if permitted s t a && check s t a then
      match step s t a with
      | .ok s' => trace check s' rest
      | .error _ => none
    else none

theorem Reach.trace {ok : State T K → T → Action T K → Prop} {check : State T K → T → Action T K → Bool}
    (hcheck : ∀ s t a, check s t a = true → ok s t a) {defaultQuantum : ℕ} (l : List (T × Action T K)) :
    ∀ {s s' : State T K}, Reach ok defaultQuantum s → trace check s l = some s' → Reach ok defaultQuantum s' := by
  induction l with
  | nil =>
    intro s s' h htrace
    cases htrace
    exact h
  | cons x rest ih =>
    intro s s' h htrace
    unfold Taskmgr.trace at htrace
    split at htrace
    next hp =>
      rw [and_eq_true] at hp
      split at htrace
      next s1 hstep => exact ih (h.step hp.1 (hcheck s _ _ hp.2) hstep) htrace
      · cases htrace
    · cases htrace

/-- A test for `privOk` that looks at no other thread. -/
def undisturbed (s : State T K) (t : T) (_ : Action T K) : Bool :=
  match s.call t with
  | .privilege k true => decide (k ∉ s.readyPriorityTasks)
  | .privilege k false => decide (k ∉ s.readyTasks) || !(s.task k).privileged
  | _ => true

theorem privOk_of_undisturbed (s : State T K) (t : T) (a : Action T K) (h : undisturbed s t a = true) : privOk s t a := by
  cases a with
  | next =>
    unfold undisturbed at h
    unfold privOk
    cases hc : s.call t with
    | privilege k priv =>
      rw [hc] at h
      cases priv with
      | true => exact of_decide_eq_true h
      | false =>
        intro hk hflag
        have hnot : decide (k ∉ s.readyTasks) || !(s.task k).privileged := h
        rw [hflag, decide_eq_false (fun hnk => hnk hk)] at hnot
        cases hnot
    | none | ready | detach | exclusive | pause | destroying => trivial
  | _ => trivial

/-- A task is shut down while it executes its events, one of which was purged. -/
theorem taskmgr_loses_nothing_shutdown : ∃ s : State (Fin 2) (Fin 1), Reach privOk 0 s ∧ s.work 1 = .acting 0 1 ∧
    (s.task 0).executed = [⟨7, 1, 0, 0, false⟩, ⟨8, 2, 0, 0, false⟩] ∧ (s.task 0).dropped = [⟨9, 3, 0, 0, false⟩] ∧
    (s.task 0).events = [⟨6, 5, 0, 0, true⟩, ⟨5, 4, 0, 0, true⟩] ∧
    ((s.task 0).executed ++ (s.task 0).events).Sublist (s.task 0).posted ∧
    (s.task 0).posted.Perm ((s.task 0).executed ++ (s.task 0).events ++ (s.task 0).dropped) ∧
    (∃ a b, (s.task 0).sent = a ++ b ∧ (s.task 0).posted = a ++ (s.task 0).registered.reverse ++ b) ∧
    ∃ s', step s 1 .work = .ok s' := by
  have hrun : (trace undisturbed (init (Fin 2) (Fin 1) 0) [(0, .create 0 0), (0, .onshutdown 0 ⟨5, 4, 0, 0, true⟩),
      (0, .onshutdown 0 ⟨6, 5, 0, 0, true⟩), (1, .dispatch), (1, .work), (0, .send 0 ⟨7, 1, 0, 0, false⟩), (0, .next),
      (0, .send 0 ⟨8, 2, 0, 0, false⟩), (1, .work), (0, .send 0 ⟨9, 3, 0, 0, false⟩), (1, .work), (0, .purgerange 0 0 3 3 0),
      (0, .shutdown 0), (1, .work)]).isSome = true := by decide
  obtain ⟨s, hs⟩ := Option.isSome_iff_exists.1 hrun
  have hreach := Reach.trace privOk_of_undisturbed _ (Reach.init) hs
  have hwork : s.work 1 = .acting 0 1 := by
    cases hs
    decide
  have hshut : (s.task 0).shuttingDown = true := by
    cases hs
    decide
  have hevents : (s.task 0).executed = [⟨7, 1, 0, 0, false⟩, ⟨8, 2, 0, 0, false⟩] ∧
      (s.task 0).dropped = [⟨9, 3, 0, 0, false⟩] ∧ (s.task 0).events = [⟨6, 5, 0, 0, true⟩, ⟨5, 4, 0, 0, true⟩] := by
    cases hs
    decide
  have hmay : permitted s 1 .work = true := by
    cases hs
    decide
  obtain ⟨-, -, -, -, -, -, horder, -, htotal⟩ := taskmgr_loses_nothing hreach
  obtain ⟨hsub, hperm, -, hbehind⟩ := horder 0
  exact ⟨s, hreach, hwork, hevents.1, hevents.2.1, hevents.2.2, hsub, hperm, hbehind hshut, htotal 1 .work hmay⟩

end Bind9.Taskmgr
