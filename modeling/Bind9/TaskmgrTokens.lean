import Bind9.Lib.Threads
import Bind9.Taskmgr

/-! # Who has a task

A task that is not idle is with somebody: it is in `ready_tasks`, or a thread is about to put it there, or a worker has it.
`View` is what matters for this, `Move` are the ways in which it changes, and `Valid` says that each such task is with
exactly one, in the state that goes with it. -/

namespace Bind9.Taskmgr

open List
open Function
open Option

set_option linter.unusedSectionVars false

variable {T K : Type}

def Work.has : Work K → Option (K × TaskState)
  | .popped k | .ending (some k) => some (k, .ready)
  | .acting k _ => some (k, .running)
  | .finished k => some (k, .done)
  | _ => none

/-- The task that a thread is about to put into `ready_tasks`. -/
def Call.pend : Call K → Option K
  | .ready k _ => some k
  | _ => Option.none

structure View (T K : Type) where
  tasks : List K
  state : K → TaskState
  ready : List K
  pend : T → Option K
  has : T → Option (K × TaskState)

def State.view (s : State T K) : View T K :=
  ⟨s.tasks, fun k => (s.task k).state, s.readyTasks, fun t => (s.call t).pend, fun t => (s.work t).has⟩

variable [DecidableEq T] [DecidableEq K]

inductive Move (v : View T K) : View T K → Prop
  /-- A thread finds the task idle. -/
  | wake (t : T) (k : K) : k ∈ v.tasks → v.state k = .idle → v.pend t = none →
      Move v { v with state := update v.state k .ready, pend := update v.pend t (some k) }
  /-- The manager finds the task idle at its end. -/
  | post (k : K) : k ∈ v.tasks → v.state k = .idle →
      Move v { v with state := update v.state k .ready, ready := v.ready ++ [k] }
  | queue (t : T) (k : K) : v.pend t = some k →
      Move v { v with pend := update v.pend t none, ready := v.ready ++ [k] }
  | pop (t : T) (k : K) : k ∈ v.ready → v.has t = none →
      Move v { v with ready := v.ready.erase k, has := update v.has t (some (k, .ready)) }
  /-- A worker works on the task, and lets go of it when it becomes idle. -/
  | run (t : T) (k : K) (st st' : TaskState) : v.has t = some (k, st) →
      Move v { v with
        state := update v.state k st'
        has := update v.has t (if st' = .idle then none else some (k, st')) }
  | requeue (t : T) (k : K) : v.has t = some (k, .ready) →
      Move v { v with has := update v.has t none, ready := v.ready ++ [k] }
  | free (t : T) (k : K) : v.has t = some (k, .done) →
      Move v { v with has := update v.has t none, tasks := v.tasks.erase k }
  | create (k : K) : k ∉ v.tasks →
      Move v { v with tasks := v.tasks ++ [k], state := update v.state k .idle }

section valid

variable [Fintype T]

def isPend (k : K) (o : Option K) : Bool := o == some k

def isHas (k : K) (o : Option (K × TaskState)) : Bool := o.map Prod.fst == some k

/-- How often the task is with somebody. -/
def View.tokens (v : View T K) (k : K) : ℕ :=
  v.ready.count k + Threads.count (isPend k) v.pend + Threads.count (isHas k) v.has

structure Valid (v : View T K) : Prop where
  nodup : v.tasks.Nodup
  freed : ∀ k, k ∉ v.tasks → v.state k = .done
  count : ∀ k, v.tokens k = if k ∈ v.tasks ∧ v.state k ≠ .idle then 1 else 0
  ready : ∀ k ∈ v.ready, v.state k = .ready
  pend : ∀ t k, v.pend t = some k → v.state k = .ready
  has : ∀ t k st, v.has t = some (k, st) → v.state k = st

variable {v : View T K} {k : K}

theorem nobody (h : v.tokens k = 0) : k ∉ v.ready ∧ (∀ t, v.pend t ≠ some k) ∧ ∀ t st, v.has t ≠ some (k, st) := by
  unfold View.tokens at h
  refine ⟨count_eq_zero.1 (by omega), fun t ht => ?_, fun t st ht => ?_⟩
  · have hpos : 0 < Threads.count (isPend k) v.pend := Threads.count_pos (t := t) (by rw [ht]; exact beq_self_eq_true _)
    omega
  · have hpos : 0 < Threads.count (isHas k) v.has := Threads.count_pos (t := t) (by rw [ht]; exact beq_self_eq_true _)
    omega

theorem Valid.count_le (h : Valid v) (k : K) : v.tokens k ≤ 1 := by
  rw [h.count k]
  split <;> omega

theorem isHas_of_eq {st : TaskState} {o : Option (K × TaskState)} (h : o = some (k, st)) : isHas k o = true := by
  rw [h]
  exact beq_self_eq_true _

variable {t : T}

/-- A task that a worker has is with nobody else. -/
theorem Valid.sole (h : Valid v) {st : TaskState} (ht : v.has t = some (k, st)) :
    k ∉ v.ready ∧ (∀ u, v.pend u ≠ some k) ∧ ∀ u st', u ≠ t → v.has u ≠ some (k, st') := by
  have hle := h.count_le k
  have hpos : 0 < Threads.count (isHas k) v.has := Threads.count_pos (t := t) (isHas_of_eq ht)
  unfold View.tokens at hle
  refine ⟨count_eq_zero.1 (by omega), fun u hu => ?_, fun u st' hut hu => ?_⟩
  · have hpend : 0 < Threads.count (isPend k) v.pend := Threads.count_pos (t := u) (by rw [hu]; exact beq_self_eq_true _)
    omega
  · have hone : Threads.count (isHas k) v.has ≤ 1 := by omega
    exact hut (Threads.eq_of_count_le_one hone (isHas_of_eq hu) (isHas_of_eq ht))

/-- Who has a task knows that it is not freed. -/
theorem Valid.mem_of_tokens (h : Valid v) (hk : 0 < v.tokens k) : k ∈ v.tasks ∧ v.state k ≠ .idle := by
  rw [h.count k] at hk
  split at hk
  · assumption
  · omega

theorem tokens_pos_of_has {st : TaskState} (ht : v.has t = some (k, st)) : 0 < v.tokens k := by
  have hpos : 0 < Threads.count (isHas k) v.has := Threads.count_pos (t := t) (isHas_of_eq ht)
  unfold View.tokens
  omega

/-- A task that a thread is about to put into `ready_tasks` is with nobody else. -/
theorem Valid.sole_pend (h : Valid v) (ht : v.pend t = some k) :
    k ∉ v.ready ∧ (∀ u, u ≠ t → v.pend u ≠ some k) ∧ ∀ u st, v.has u ≠ some (k, st) := by
  have hle := h.count_le k
  have hpend : isPend k (v.pend t) = true := by rw [ht]; exact beq_self_eq_true _
  have hpos : 0 < Threads.count (isPend k) v.pend := Threads.count_pos (t := t) hpend
  unfold View.tokens at hle
  refine ⟨count_eq_zero.1 (by omega), fun u hut hu => ?_, fun u st hu => ?_⟩
  · have hone : Threads.count (isPend k) v.pend ≤ 1 := by omega
    exact hut (Threads.eq_of_count_le_one hone (by rw [hu]; exact beq_self_eq_true _) hpend)
  · have hhas : 0 < Threads.count (isHas k) v.has := Threads.count_pos (t := u) (isHas_of_eq hu)
    omega

theorem Valid.sole_ready (h : Valid v) (hk : k ∈ v.ready) : (∀ u, v.pend u ≠ some k) ∧ ∀ u st, v.has u ≠ some (k, st) := by
  have hle := h.count_le k
  have hpos := count_pos_iff.2 hk
  unfold View.tokens at hle
  refine ⟨fun u hu => ?_, fun u st hu => ?_⟩
  · have hpend : 0 < Threads.count (isPend k) v.pend := Threads.count_pos (t := u) (by rw [hu]; exact beq_self_eq_true _)
    omega
  · have hhas : 0 < Threads.count (isHas k) v.has := Threads.count_pos (t := u) (isHas_of_eq hu)
    omega

theorem tokens_pos_of_ready (hk : k ∈ v.ready) : 0 < v.tokens k := by
  have hpos := count_pos_iff.2 hk
  unfold View.tokens
  omega

/-! ### The moves -/

theorem isPend_some (k k' : K) : isPend k' (some k) = decide (k = k') := by
  unfold isPend
  rw [Bool.eq_iff_iff, beq_iff_eq, some_inj, decide_eq_true_iff]

theorem isHas_some (k k' : K) (st : TaskState) : isHas k' (some (k, st)) = decide (k = k') := by
  unfold isHas
  rw [Bool.eq_iff_iff, beq_iff_eq, map_some, some_inj, decide_eq_true_iff]

/-- A change that is about one task only. -/
structure Only (k : K) (v v' : View T K) : Prop where
  mem_tasks : ∀ k', k' ≠ k → (k' ∈ v'.tasks ↔ k' ∈ v.tasks)
  state : ∀ k', k' ≠ k → v'.state k' = v.state k'
  tokens : ∀ k', k' ≠ k → v'.tokens k' = v.tokens k'
  ready : ∀ k', k' ≠ k → k' ∈ v'.ready → k' ∈ v.ready
  pend : ∀ u k', k' ≠ k → v'.pend u = some k' → v.pend u = some k'
  has : ∀ u k' st, k' ≠ k → v'.has u = some (k', st) → v.has u = some (k', st)

/-- What is to be shown of the task that a change is about. -/
structure Fits (k : K) (v : View T K) : Prop where
  nodup : v.tasks.Nodup
  freed : k ∉ v.tasks → v.state k = .done
  count : v.tokens k = if k ∈ v.tasks ∧ v.state k ≠ .idle then 1 else 0
  ready : k ∈ v.ready → v.state k = .ready
  pend : ∀ u, v.pend u = some k → v.state k = .ready
  has : ∀ u st, v.has u = some (k, st) → v.state k = st

variable {v' : View T K}

theorem Valid.change (h : Valid v) (ho : Only k v v') (hf : Fits k v') : Valid v' := by
  refine ⟨hf.nodup, fun k' => ?_, fun k' => ?_, fun k' => ?_, fun u k' => ?_, fun u k' st => ?_⟩
  · by_cases hne : k' = k
    · exact hne ▸ hf.freed
    · rw [ho.mem_tasks k' hne, ho.state k' hne]
      exact h.freed k'
  · by_cases hne : k' = k
    · exact hne ▸ hf.count
    · rw [ho.tokens k' hne, ho.state k' hne, h.count k']
      simp only [ho.mem_tasks k' hne]
  · by_cases hne : k' = k
    · exact hne ▸ hf.ready
    · intro hk'
      rw [ho.state k' hne]
      exact h.ready k' (ho.ready k' hne hk')
  · by_cases hne : k' = k
    · exact hne ▸ hf.pend u
    · intro hu
      rw [ho.state k' hne]
      exact h.pend u k' (ho.pend u k' hne hu)
  · by_cases hne : k' = k
    · exact hne ▸ hf.has u st
    · intro hu
      rw [ho.state k' hne]
      exact h.has u k' st (ho.has u k' st hne hu)

omit [DecidableEq T] [Fintype T] in
theorem isPend_eq_true {o : Option K} : isPend k o = true ↔ o = some k := beq_iff_eq

omit [DecidableEq T] [Fintype T] in
theorem isHas_eq_true {o : Option (K × TaskState)} : isHas k o = true ↔ ∃ st, o = some (k, st) := by
  unfold isHas
  cases o with
  | none =>
    constructor
    · intro h
      cases h
    · rintro ⟨st, h⟩
      cases h
  | some x =>
    rw [map_some, beq_iff_eq, some_inj]
    exact ⟨fun h => ⟨x.2, by rw [← h]⟩, fun ⟨st, h⟩ => by rw [Option.some.inj h]⟩

/-- A task that is neither in `ready_tasks` nor about to be put there is with a worker. -/
theorem has_of_tokens (h : v.tokens k = 1) (hready : k ∉ v.ready) (hpend : ¬ ∃ t, v.pend t = some k) :
    ∃ t st, v.has t = some (k, st) := by
  have hR := count_eq_zero.2 hready
  have hP : Threads.count (isPend k) v.pend = 0 := by
    by_contra hne
    obtain ⟨t, ht⟩ := Threads.exists_of_count_pos (Nat.pos_of_ne_zero hne)
    exact hpend ⟨t, isPend_eq_true.1 ht⟩
  have hH : 0 < Threads.count (isHas k) v.has := by
    unfold View.tokens at h
    omega
  obtain ⟨t, ht⟩ := Threads.exists_of_count_pos hH
  obtain ⟨st, hst⟩ := isHas_eq_true.1 ht
  exact ⟨t, st, hst⟩

/-- A change at one thread. -/
theorem only_of {tasks' : List K} {state' : K → TaskState} {ready' : List K} {o : Option K}
    {p : Option (K × TaskState)} (htasks : ∀ k', k' ≠ k → (k' ∈ tasks' ↔ k' ∈ v.tasks))
    (hstate : ∀ k', k' ≠ k → state' k' = v.state k') (hready : ∀ k', k' ≠ k → ready'.count k' = v.ready.count k')
    (hpend : ∀ k', k' ≠ k → (o = some k' ↔ v.pend t = some k'))
    (hhas : ∀ k' st, k' ≠ k → (p = some (k', st) ↔ v.has t = some (k', st))) :
    Only k v ⟨tasks', state', ready', update v.pend t o, update v.has t p⟩ := by
  refine ⟨htasks, hstate, fun k' hne => ?_, fun k' hne hk' => ?_, fun u k' hne hu => ?_, fun u k' st hne hu => ?_⟩
  · have hP := Threads.count_update (isPend k') v.pend t o
    have hH := Threads.count_update (isHas k') v.has t p
    have hpend' : isPend k' o = isPend k' (v.pend t) := by
      rw [Bool.eq_iff_iff, isPend_eq_true, isPend_eq_true, hpend k' hne]
    have hhas' : isHas k' p = isHas k' (v.has t) := by
      rw [Bool.eq_iff_iff, isHas_eq_true, isHas_eq_true]
      exact exists_congr (fun st => hhas k' st hne)
    rw [hpend'] at hP
    rw [hhas'] at hH
    have hR := hready k' hne
    show ready'.count k' + Threads.count (isPend k') (update v.pend t o) +
      Threads.count (isHas k') (update v.has t p) = v.tokens k'
    unfold View.tokens
    omega
  · apply count_pos_iff.1
    rw [← hready k' hne]
    exact count_pos_iff.2 hk'
  · by_cases hut : u = t
    · subst hut
      exact (hpend k' hne).1 ((update_self u o v.pend).symm.trans hu)
    · exact (update_of_ne hut o v.pend).symm.trans hu
  · by_cases hut : u = t
    · subst hut
      exact (hhas k' st hne).1 ((update_self u p v.has).symm.trans hu)
    · exact (update_of_ne hut p v.has).symm.trans hu

omit [DecidableEq T] [Fintype T] in
theorem count_concat_ne (l : List K) {k' : K} (hne : k' ≠ k) : (l ++ [k]).count k' = l.count k' := by
  rw [count_append, count_singleton, if_neg, Nat.add_zero]
  rw [beq_iff_eq]
  exact Ne.symm hne

theorem tokens_change (k : K) (tasks' : List K) (state' : K → TaskState) (ready' : List K) (t : T) (o : Option K)
    (p : Option (K × TaskState)) :
    View.tokens ⟨tasks', state', ready', update v.pend t o, update v.has t p⟩ k + v.ready.count k +
      (isPend k (v.pend t)).toNat + (isHas k (v.has t)).toNat =
    v.tokens k + ready'.count k + (isPend k o).toNat + (isHas k p).toNat := by
  have hP := Threads.count_update (isPend k) v.pend t o
  have hH := Threads.count_update (isHas k) v.has t p
  unfold View.tokens
  simp only
  omega

theorem Valid.wake (h : Valid v) (hk : k ∈ v.tasks) (hidle : v.state k = .idle) (ht : v.pend t = none) :
    Valid { v with state := update v.state k .ready, pend := update v.pend t (some k) } := by
  have hzero : v.tokens k = 0 := by
    rw [h.count k, if_neg]
    exact fun hne => hne.2 hidle
  obtain ⟨hready, hpend, hhas⟩ := nobody hzero
  have ho : Only k v ⟨v.tasks, update v.state k .ready, v.ready, update v.pend t (some k),
      update v.has t (v.has t)⟩ := by
    refine only_of (fun _ _ => Iff.rfl) (fun k' hne => update_of_ne hne _ _) (fun _ _ => rfl) (fun k' hne => ?_)
      (fun _ _ _ => Iff.rfl)
    rw [ht]
    exact ⟨fun heq => absurd (Option.some.inj heq).symm hne, fun heq => by cases heq⟩
  have hcount := tokens_change (v := v) k v.tasks (update v.state k .ready) v.ready t (some k) (v.has t)
  rw [update_eq_self] at ho hcount
  rw [ht, isPend_some, decide_eq_true rfl, hzero] at hcount
  have hnone : (isPend k none).toNat = 0 := rfl
  apply h.change ho
  have hstate : update v.state k .ready k = .ready := update_self _ _ _
  refine ⟨h.nodup, fun hk' => absurd hk hk', ?_, fun hk' => absurd hk' hready, fun u _ => hstate,
    fun u st hu => absurd hu (hhas u st)⟩
  have hne : update v.state k .ready k ≠ .idle := by
    rw [hstate]
    exact TaskState.noConfusion
  rw [if_pos ⟨hk, hne⟩]
  rw [Bool.toNat_true] at hcount
  omega

theorem Valid.post (h : Valid v) (hk : k ∈ v.tasks) (hidle : v.state k = .idle) :
    Valid { v with state := update v.state k .ready, ready := v.ready ++ [k] } := by
  have hzero : v.tokens k = 0 := by
    rw [h.count k, if_neg]
    exact fun hne => hne.2 hidle
  obtain ⟨hready, hpend, hhas⟩ := nobody hzero
  have hstate : update v.state k .ready k = .ready := update_self _ _ _
  apply h.change
  · refine ⟨fun _ _ => Iff.rfl, fun k' hne => update_of_ne hne _ _, fun k' hne => ?_, fun k' hne hk' => ?_,
      fun _ _ _ hu => hu, fun _ _ _ _ hu => hu⟩
    · exact congrArg (fun n => n + _ + _) (count_concat_ne v.ready hne)
    · obtain hk' | hk' := mem_append.1 hk'
      · exact hk'
      · exact absurd (mem_singleton.1 hk') hne
  · refine ⟨h.nodup, fun hk' => absurd hk hk', ?_, fun _ => hstate, fun u hu => absurd hu (hpend u),
      fun u st hu => absurd hu (hhas u st)⟩
    have hne : update v.state k .ready k ≠ .idle := by
      rw [hstate]
      exact TaskState.noConfusion
    rw [if_pos ⟨hk, hne⟩]
    unfold View.tokens at hzero ⊢
    simp only [count_append, count_singleton_self]
    omega

theorem Valid.queue (h : Valid v) (ht : v.pend t = some k) :
    Valid { v with pend := update v.pend t none, ready := v.ready ++ [k] } := by
  have hready := h.pend t k ht
  have ho : Only k v ⟨v.tasks, v.state, v.ready ++ [k], update v.pend t none, update v.has t (v.has t)⟩ := by
    refine only_of (fun _ _ => Iff.rfl) (fun _ _ => rfl) (fun k' hne => count_concat_ne v.ready hne) (fun k' hne => ?_)
      (fun _ _ _ => Iff.rfl)
    rw [ht]
    exact ⟨fun heq => (by cases heq), fun heq => absurd (Option.some.inj heq).symm hne⟩
  have hcount := tokens_change (v := v) k v.tasks v.state (v.ready ++ [k]) t none (v.has t)
  rw [update_eq_self] at ho hcount
  rw [ht, isPend_some, decide_eq_true rfl, count_append, count_singleton_self, Bool.toNat_true] at hcount
  have hnone : (isPend k none).toNat = 0 := rfl
  apply h.change ho
  refine ⟨h.nodup, h.freed k, ?_, fun _ => hready, fun u _ => hready, fun u st hu => h.has u k st hu⟩
  rw [← h.count k]
  omega

theorem Valid.pop (h : Valid v) (hk : k ∈ v.ready) (ht : v.has t = none) :
    Valid { v with ready := v.ready.erase k, has := update v.has t (some (k, .ready)) } := by
  have hstate := h.ready k hk
  have hpos := count_pos_iff.2 hk
  have ho : Only k v ⟨v.tasks, v.state, v.ready.erase k, update v.pend t (v.pend t),
      update v.has t (some (k, .ready))⟩ := by
    refine only_of (fun _ _ => Iff.rfl) (fun _ _ => rfl) (fun k' hne => count_erase_of_ne hne)
      (fun _ _ => Iff.rfl) (fun k' st hne => ?_)
    rw [ht]
    exact ⟨fun heq => absurd (congrArg Prod.fst (Option.some.inj heq)).symm hne, fun heq => by cases heq⟩
  have hcount := tokens_change (v := v) k v.tasks v.state (v.ready.erase k) t (v.pend t) (some (k, .ready))
  rw [update_eq_self] at ho hcount
  rw [ht, isHas_some, decide_eq_true rfl, count_erase_self, Bool.toNat_true] at hcount
  have hnone : (isHas k none).toNat = 0 := rfl
  apply h.change ho
  refine ⟨h.nodup, h.freed k, ?_, fun _ => hstate, fun u hu => h.pend u k hu, fun u st hu => ?_⟩
  · rw [← h.count k]
    omega
  · by_cases hut : u = t
    · subst hut
      cases (update_self u _ v.has).symm.trans hu
      exact hstate
    · exact h.has u k st ((update_of_ne hut _ v.has).symm.trans hu)

theorem Valid.run (h : Valid v) {st st' : TaskState} (ht : v.has t = some (k, st)) :
    Valid { v with
      state := update v.state k st'
      has := update v.has t (if st' = .idle then none else some (k, st')) } := by
  obtain ⟨hready, hpend, hhas⟩ := h.sole ht
  obtain ⟨hk, -⟩ := h.mem_of_tokens (tokens_pos_of_has ht)
  have hone : v.tokens k = 1 := by
    have hpos := tokens_pos_of_has ht
    have hle := h.count_le k
    omega
  have hstate : update v.state k st' k = st' := update_self _ _ _
  have ho : Only k v ⟨v.tasks, update v.state k st', v.ready, update v.pend t (v.pend t),
      update v.has t (if st' = .idle then none else some (k, st'))⟩ := by
    refine only_of (fun _ _ => Iff.rfl) (fun k' hne => update_of_ne hne _ _) (fun _ _ => rfl) (fun _ _ => Iff.rfl)
      (fun k' st'' hne => ?_)
    rw [ht]
    refine ⟨fun heq => ?_, fun heq => absurd (congrArg Prod.fst (Option.some.inj heq)).symm hne⟩
    split at heq
    · cases heq
    · exact absurd (congrArg Prod.fst (Option.some.inj heq)).symm hne
  have hcount := tokens_change (v := v) k v.tasks (update v.state k st') v.ready t (v.pend t)
    (if st' = .idle then none else some (k, st'))
  rw [update_eq_self] at ho hcount
  rw [ht, isHas_some, decide_eq_true rfl, hone, Bool.toNat_true] at hcount
  apply h.change ho
  refine ⟨h.nodup, fun hk' => absurd hk hk', ?_, fun hk' => absurd hk' hready, fun u hu => absurd hu (hpend u),
    fun u st'' hu => ?_⟩
  · by_cases hidle : st' = .idle
    · rw [if_pos hidle] at hcount ⊢
      rw [if_neg (fun hne => hne.2 (hstate.trans hidle))]
      have hnone : (isHas k none).toNat = 0 := rfl
      omega
    · have hne : update v.state k st' k ≠ .idle := by
        rw [hstate]
        exact hidle
      rw [if_neg hidle] at hcount ⊢
      rw [if_pos ⟨hk, hne⟩]
      rw [isHas_some, decide_eq_true rfl, Bool.toNat_true] at hcount
      omega
  · by_cases hut : u = t
    · subst hut
      have heq := (update_self u _ v.has).symm.trans hu
      split at heq
      · cases heq
      · cases heq
        exact hstate
    · exact absurd ((update_of_ne hut _ v.has).symm.trans hu) (hhas u st'' hut)

theorem Valid.requeue (h : Valid v) (ht : v.has t = some (k, .ready)) :
    Valid { v with has := update v.has t none, ready := v.ready ++ [k] } := by
  have hstate := h.has t k _ ht
  have ho : Only k v ⟨v.tasks, v.state, v.ready ++ [k], update v.pend t (v.pend t), update v.has t none⟩ := by
    refine only_of (fun _ _ => Iff.rfl) (fun _ _ => rfl) (fun k' hne => count_concat_ne v.ready hne) (fun _ _ => Iff.rfl)
      (fun k' st hne => ?_)
    rw [ht]
    exact ⟨fun heq => (by cases heq), fun heq => absurd (congrArg Prod.fst (Option.some.inj heq)).symm hne⟩
  have hcount := tokens_change (v := v) k v.tasks v.state (v.ready ++ [k]) t (v.pend t) none
  rw [update_eq_self] at ho hcount
  rw [ht, isHas_some, decide_eq_true rfl, count_append, count_singleton_self, Bool.toNat_true] at hcount
  have hnone : (isHas k none).toNat = 0 := rfl
  apply h.change ho
  refine ⟨h.nodup, h.freed k, ?_, fun _ => hstate, fun u hu => h.pend u k hu, fun u st hu => ?_⟩
  · rw [← h.count k]
    omega
  · by_cases hut : u = t
    · subst hut
      cases (update_self u _ v.has).symm.trans hu
    · exact h.has u k st ((update_of_ne hut _ v.has).symm.trans hu)

theorem Valid.free (h : Valid v) (ht : v.has t = some (k, .done)) :
    Valid { v with has := update v.has t none, tasks := v.tasks.erase k } := by
  obtain ⟨hready, hpend, hhas⟩ := h.sole ht
  have hone : v.tokens k = 1 := by
    have hpos := tokens_pos_of_has ht
    have hle := h.count_le k
    omega
  have hgone : k ∉ v.tasks.erase k := h.nodup.not_mem_erase
  have ho : Only k v ⟨v.tasks.erase k, v.state, v.ready, update v.pend t (v.pend t),
      update v.has t none⟩ := by
    refine only_of (fun k' hne => mem_erase_of_ne hne) (fun _ _ => rfl) (fun _ _ => rfl) (fun _ _ => Iff.rfl)
      (fun k' st hne => ?_)
    rw [ht]
    exact ⟨fun heq => (by cases heq), fun heq => absurd (congrArg Prod.fst (Option.some.inj heq)).symm hne⟩
  have hcount := tokens_change (v := v) k (v.tasks.erase k) v.state v.ready t (v.pend t) none
  rw [update_eq_self] at ho hcount
  rw [ht, isHas_some, decide_eq_true rfl, hone, Bool.toNat_true] at hcount
  have hnone : (isHas k none).toNat = 0 := rfl
  apply h.change ho
  refine ⟨h.nodup.erase k, fun _ => h.has t k _ ht, ?_, fun hk => absurd hk hready, fun u hu => absurd hu (hpend u),
    fun u st hu => ?_⟩
  · rw [if_neg (fun hk => hgone hk.1)]
    omega
  · by_cases hut : u = t
    · subst hut
      cases (update_self u _ v.has).symm.trans hu
    · exact absurd ((update_of_ne hut _ v.has).symm.trans hu) (hhas u st hut)

theorem Valid.create (h : Valid v) (hk : k ∉ v.tasks) :
    Valid { v with tasks := v.tasks ++ [k], state := update v.state k .idle } := by
  have hzero : v.tokens k = 0 := by
    rw [h.count k, if_neg]
    exact fun hmem => hk hmem.1
  obtain ⟨hready, hpend, hhas⟩ := nobody hzero
  have hstate : update v.state k .idle k = .idle := update_self _ _ _
  apply h.change
  · refine ⟨fun k' hne => ?_, fun k' hne => update_of_ne hne _ _, fun _ _ => rfl, fun _ _ hk' => hk',
      fun _ _ _ hu => hu, fun _ _ _ _ hu => hu⟩
    rw [mem_append, mem_singleton]
    exact ⟨fun hk' => hk'.resolve_right hne, Or.inl⟩
  · refine ⟨?_, fun hk' => ?_, ?_, fun hk' => absurd hk' hready, fun u hu => absurd hu (hpend u),
      fun u st hu => absurd hu (hhas u st)⟩
    · rw [nodup_append]
      refine ⟨h.nodup, nodup_singleton k, fun x hx y hy hxy => hk ?_⟩
      rw [mem_singleton] at hy
      rwa [← hy, ← hxy]
    · exact absurd (mem_append_right _ (mem_singleton_self k)) hk'
    · rw [if_neg (fun hne => hne.2 hstate)]
      exact hzero

theorem Valid.move (h : Valid v) (hm : Move v v') : Valid v' := by
  cases hm with
  | wake t k hk hidle ht => exact h.wake hk hidle ht
  | post k hk hidle => exact h.post hk hidle
  | queue t k ht => exact h.queue ht
  | pop t k hk ht => exact h.pop hk ht
  | run t k st st' ht => exact h.run ht
  | requeue t k ht => exact h.requeue ht
  | free t k ht => exact h.free ht
  | create k hk => exact h.create hk

theorem Valid.moves (h : Valid v) (hm : Relation.ReflTransGen Move v v') : Valid v' := by
  induction hm with
  | refl => exact h
  | tail _ hstep ih => exact ih.move hstep

end valid

end Bind9.Taskmgr
