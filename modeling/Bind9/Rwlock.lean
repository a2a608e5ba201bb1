import Bind9.Lib.Threads
import Bind9.Region

/-! # The read/write lock without atomic operations

The generic algorithm of `lib/isc/rwlock.c`.  Every function holds the mutex of the lock from its start to its end, or to a
`WAIT`; each such section is one step of the system.  A thread that waits may wake up at any time, so that signals and
broadcasts have no effect here.

A thread follows the protocol (`Protocol`) if it locks when it holds nothing, upgrades a read lock, downgrades a write lock
and unlocks what it holds.  `INSIST(rwl->original == isc_rwlocktype_none)` at the end of `isc_rwlock_unlock` is there also
when other threads go on holding the lock: it fails if the lock was downgraded and other readers joined. -/

namespace Bind9.Rwlock

open Bool

/-- `isc_rwlocktype_t` as callers use it. -/
inductive LockType where
  | read
  | write
deriving DecidableEq, Repr

/-- `isc_rwlock_t`; `isc_rwlocktype_none` of the field `original` is `none`. -/
structure Rwl where
  type : LockType
  original : Option LockType
  active : ℕ
  granted : UInt32
  readersWaiting : ℕ
  writersWaiting : ℕ
  readQuota : UInt32
  writeQuota : UInt32

/-- `isc_rwlock_init`; `RWLOCK_DEFAULT_READ_QUOTA` and `RWLOCK_DEFAULT_WRITE_QUOTA` are 4. -/
def init (readQuota writeQuota : UInt32) : Rwl :=
  ⟨.read, none, 0, 0, 0, 0, if readQuota = 0 then 4 else readQuota, if writeQuota = 0 then 4 else writeQuota⟩

/-- How a section of `doit` ends. -/
inductive Outcome where
  | success
  | lockbusy
  | wait
deriving DecidableEq, Repr

variable (rwl : Rwl)

def turnRead (skip nonblock : Bool) : Outcome × Rwl :=
  if skip = false ∧ (rwl.active = 0 ∨
      (rwl.type = .read ∧ (rwl.writersWaiting = 0 ∨ rwl.granted < rwl.readQuota))) then
    (.success, { rwl with type := .read, active := rwl.active + 1, granted := rwl.granted + 1 })
  else if nonblock then (.lockbusy, rwl)
  else (.wait, { rwl with readersWaiting := rwl.readersWaiting + 1 })

def turnWrite (skip nonblock : Bool) : Outcome × Rwl :=
  if skip = false ∧ rwl.active = 0 then
    (.success, { rwl with type := .write, active := 1, granted := rwl.granted + 1 })
  else if nonblock then (.lockbusy, rwl)
  else (.wait, { rwl with writersWaiting := rwl.writersWaiting + 1 })

/-- `doit` up to its first `WAIT`. -/
def doit (type : LockType) (nonblock : Bool) : Outcome × Rwl :=
  match type with
  | .read => turnRead rwl (rwl.readersWaiting != 0) nonblock
  | .write => turnWrite rwl (rwl.writersWaiting != 0) nonblock

/-- `doit` from one `WAIT` to the next. -/
def doitAgain (type : LockType) : Outcome × Rwl :=
  match type with
  | .read => turnRead { rwl with readersWaiting := rwl.readersWaiting - 1 } false false
  | .write => turnWrite { rwl with writersWaiting := rwl.writersWaiting - 1 } false false

def tryupgrade : Exec (Outcome × Rwl) := do
  require (rwl.type == .read)
  require (rwl.active != 0)
  if rwl.active = 1 then
    pure (.success, { rwl with original := if rwl.original = none then some .read else none, type := .write })
  else pure (.lockbusy, rwl)

def downgrade : Exec Rwl := do
  require (rwl.type == .write)
  require (rwl.active == 1)
  pure { rwl with type := .read, original := if rwl.original = none then some .write else none }

/-- The part of `isc_rwlock_unlock` for the last holder. -/
def unlockLast : Rwl :=
  let rwl := { rwl with type := rwl.original.getD rwl.type, original := none }
  match rwl.type with
  | .read => { rwl with granted := 0, type := if 0 < rwl.writersWaiting then .write else .read }
  | .write =>
    if 0 < rwl.readersWaiting then
      if 0 < rwl.writersWaiting ∧ rwl.granted < rwl.writeQuota then rwl else { rwl with granted := 0, type := .read }
    else { rwl with granted := 0 }

/-- A holder less. -/
def drop : Rwl := { rwl with active := rwl.active - 1 }

/-- The lock after the `if` of `isc_rwlock_unlock`. -/
def leave : Rwl := if (drop rwl).active = 0 then unlockLast (drop rwl) else drop rwl

def unlock (type : LockType) : Exec Rwl := do
  require (rwl.type == type)
  require (decide (0 < rwl.active))
  require ((leave rwl).original == none)
  pure (leave rwl)

/-! ### Threads -/

/-- Where a thread is. -/
inductive Status where
  | out
  | waiting (type : LockType)
  | holding (type : LockType)
deriving DecidableEq, Repr

def Status.holds : Status → Bool
  | .holding _ => true
  | _ => false

def Status.writes : Status → Bool
  | .holding .write => true
  | _ => false

/-- The lock and its threads. -/
structure State (T : Type) where
  rwl : Rwl
  status : T → Status

/-- What a thread can do: the four functions with their arguments, and waking up. -/
inductive Action where
  | lock (type : LockType)
  | trylock (type : LockType)
  | wake
  | tryupgrade
  | downgrade
  | unlock
deriving DecidableEq, Repr

/-- The protocol of the callers; a thread that waits wakes up. -/
def Protocol : Status → Action → Prop
  | .out, .lock _ => True
  | .out, .trylock _ => True
  | .waiting _, .wake => True
  | .holding .read, .tryupgrade => True
  | .holding .write, .downgrade => True
  | .holding _, .unlock => True
  | _, _ => False

set_option linter.unusedSectionVars false

variable {T : Type} [DecidableEq T]

/-- Where a thread is after a section of `doit`. -/
def Outcome.status (o : Outcome) (type : LockType) : Status :=
  match o with
  | .success => .holding type
  | .lockbusy => .out
  | .wait => .waiting type

/-- A thread gets to another place, and the lock changes. -/
def State.move (s : State T) (t : T) (status : Status) (rwl : Rwl) : State T :=
  ⟨rwl, Function.update s.status t status⟩

/-- A section of a thread. -/
def step (s : State T) (t : T) (a : Action) : Exec (State T) :=
  match a, s.status t with
  | .lock type, _ => .ok (s.move t ((doit s.rwl type false).1.status type) (doit s.rwl type false).2)
  | .trylock type, _ => .ok (s.move t ((doit s.rwl type true).1.status type) (doit s.rwl type true).2)
  | .wake, .waiting type => .ok (s.move t ((doitAgain s.rwl type).1.status type) (doitAgain s.rwl type).2)
  | .wake, _ => .ok s
  | .tryupgrade, _ => do
    let (o, rwl) ← tryupgrade s.rwl
    pure (s.move t (.holding (if o = .success then .write else .read)) rwl)
  | .downgrade, _ => do
    let rwl ← downgrade s.rwl
    pure (s.move t (.holding .read) rwl)
  | .unlock, .holding type => do
    let rwl ← unlock s.rwl type
    pure (s.move t .out rwl)
  | .unlock, _ => .ok s

/-- The states that threads reach that follow the protocol. -/
inductive Reach (readQuota writeQuota : UInt32) : State T → Prop
  | init : Reach readQuota writeQuota ⟨init readQuota writeQuota, fun _ => .out⟩
  | step {s s' : State T} {t : T} {a : Action} : Reach readQuota writeQuota s → Protocol (s.status t) a →
      step s t a = .ok s' → Reach readQuota writeQuota s'

/-! ### Exclusion -/

/-- The number of holders is right, a writer is alone, and the type of the lock is that of its holders. -/
structure Sound [Fintype T] (s : State T) : Prop where
  active_eq : s.rwl.active = Threads.count Status.holds s.status
  writer_alone : ∀ t, s.status t = .holding .write → s.rwl.active = 1
  type_eq : 0 < s.rwl.active → (s.rwl.type = .write ↔ ∃ t, s.status t = .holding .write)

/-- An unlock is in order if the lock is not a downgraded or upgraded one, or the thread is its only holder. -/
def Orderly (s : State T) : Action → Prop
  | .unlock => s.rwl.original = none ∨ s.rwl.active = 1
  | _ => True

section sound

variable [Fintype T] {s : State T} {t : T}

/-- The invariant, with numbers of threads: `Sound` in a form that arithmetic decides. -/
structure Inv (s : State T) : Prop where
  active_eq : s.rwl.active = Threads.count Status.holds s.status
  alone : 0 < Threads.count Status.writes s.status → s.rwl.active = 1
  type_eq : 0 < s.rwl.active → (s.rwl.type = .write ↔ 0 < Threads.count Status.writes s.status)

theorem writes_iff {x : Status} : x.writes = true ↔ x = .holding .write := by
  cases x with
  | out => decide
  | waiting type => simp [Status.writes]
  | holding type => cases type <;> decide

theorem Inv.sound (h : Inv s) : Sound s where
  active_eq := h.active_eq
  writer_alone t ht := h.alone (Threads.count_pos (writes_iff.2 ht))
  type_eq hpos := by
    rw [h.type_eq hpos]
    constructor
    · intro hw
      obtain ⟨t, ht⟩ := Threads.exists_of_count_pos hw
      exact ⟨t, writes_iff.1 ht⟩
    · rintro ⟨t, ht⟩
      exact Threads.count_pos (writes_iff.2 ht)

theorem count_writes_le (s : State T) : Threads.count Status.writes s.status ≤ Threads.count Status.holds s.status := by
  apply Threads.count_mono
  intro x hx
  rw [writes_iff.1 hx]
  rfl

theorem counts_move (s : State T) (t : T) (x : Status) (rwl : Rwl) :
    Threads.count Status.holds (s.move t x rwl).status + (s.status t).holds.toNat =
        Threads.count Status.holds s.status + x.holds.toNat ∧
      Threads.count Status.writes (s.move t x rwl).status + (s.status t).writes.toNat =
        Threads.count Status.writes s.status + x.writes.toNat :=
  ⟨Threads.count_update _ _ _ _, Threads.count_update _ _ _ _⟩

theorem turnRead_spec (rwl : Rwl) (skip nonblock : Bool) :
    ((turnRead rwl skip nonblock).1 = .success ∧ (rwl.active = 0 ∨ rwl.type = .read) ∧
        (turnRead rwl skip nonblock).2.active = rwl.active + 1 ∧ (turnRead rwl skip nonblock).2.type = .read) ∨
      ((turnRead rwl skip nonblock).1 ≠ .success ∧ (turnRead rwl skip nonblock).2.active = rwl.active ∧
        (turnRead rwl skip nonblock).2.type = rwl.type) := by
  unfold turnRead
  split
  next h => exact .inl ⟨rfl, h.2.imp id And.left, rfl, rfl⟩
  · split
    · exact .inr ⟨Outcome.noConfusion, rfl, rfl⟩
    · exact .inr ⟨Outcome.noConfusion, rfl, rfl⟩

theorem turnWrite_spec (rwl : Rwl) (skip nonblock : Bool) : ((turnWrite rwl skip nonblock).1 = .success ∧ rwl.active = 0 ∧
        (turnWrite rwl skip nonblock).2.active = 1 ∧ (turnWrite rwl skip nonblock).2.type = .write) ∨
      ((turnWrite rwl skip nonblock).1 ≠ .success ∧ (turnWrite rwl skip nonblock).2.active = rwl.active ∧
        (turnWrite rwl skip nonblock).2.type = rwl.type) := by
  unfold turnWrite
  split
  next h => exact .inl ⟨rfl, h.2, rfl, rfl⟩
  · split
    · exact .inr ⟨Outcome.noConfusion, rfl, rfl⟩
    · exact .inr ⟨Outcome.noConfusion, rfl, rfl⟩

/-- What a section of `doit` does, for a thread that holds nothing: it gives the lock to the thread, or leaves the holders and
the type of the lock alone. -/
def Taken (rwl : Rwl) (type : LockType) (o : Outcome) (rwl' : Rwl) : Prop :=
  (o = .success ∧ rwl'.type = type ∧ rwl'.active = rwl.active + 1 ∧
      (rwl.active = 0 ∨ type = .read ∧ rwl.type = .read)) ∨
    (o ≠ .success ∧ rwl'.active = rwl.active ∧ rwl'.type = rwl.type)

theorem doit_taken (rwl : Rwl) (type : LockType) (nonblock : Bool) :
    Taken rwl type (doit rwl type nonblock).1 (doit rwl type nonblock).2 := by
  cases type with
  | read =>
    obtain ⟨ho, hfree, hactive, htype⟩ | h := turnRead_spec rwl (rwl.readersWaiting != 0) nonblock
    · exact .inl ⟨ho, htype, hactive, hfree.imp id (fun h => ⟨rfl, h⟩)⟩
    · exact .inr h
  | write =>
    obtain ⟨ho, hfree, hactive, htype⟩ | h := turnWrite_spec rwl (rwl.writersWaiting != 0) nonblock
    · exact .inl ⟨ho, htype, hactive.trans (by rw [hfree]), .inl hfree⟩
    · exact .inr h

theorem doitAgain_taken (rwl : Rwl) (type : LockType) : Taken rwl type (doitAgain rwl type).1 (doitAgain rwl type).2 := by
  cases type with
  | read =>
    obtain ⟨ho, hfree, hactive, htype⟩ | h := turnRead_spec { rwl with readersWaiting := rwl.readersWaiting - 1 } false false
    · exact .inl ⟨ho, htype, hactive, hfree.imp id (fun h => ⟨rfl, h⟩)⟩
    · exact .inr h
  | write =>
    obtain ⟨ho, hfree, hactive, htype⟩ | h := turnWrite_spec { rwl with writersWaiting := rwl.writersWaiting - 1 } false false
    · exact .inl ⟨ho, htype, hactive.trans (by rw [show rwl.active = 0 from hfree]), .inl hfree⟩
    · exact .inr h

theorem Inv.no_writer (h : Inv s) (hfree : s.rwl.active = 0 ∨ s.rwl.type = .read) :
    Threads.count Status.writes s.status = 0 := by
  have hle := count_writes_le s
  by_cases hpos : 0 < s.rwl.active
  · have htype := hfree.resolve_left (by omega)
    have hiff := h.type_eq hpos
    rw [htype] at hiff
    by_contra hne
    cases hiff.2 (by omega)
  · have := h.active_eq
    omega

variable {type : LockType}

theorem Inv.taken (h : Inv s) (ht : (s.status t).holds = false) {o : Outcome} {rwl : Rwl}
    (htaken : Taken s.rwl type o rwl) : Inv (s.move t (o.status type) rwl) := by
  have hw : (s.status t).writes = false := by
    cases hs : s.status t with
    | holding type =>
      rw [hs] at ht
      cases ht
    | _ => rfl
  obtain ⟨hholds, hwrites⟩ := counts_move s t (o.status type) rwl
  have heq := h.active_eq
  rw [ht] at hholds
  rw [hw] at hwrites
  obtain ⟨rfl, htype, hactive, hfree⟩ | ⟨ho, hactive, htype⟩ := htaken
  · have hnone := h.no_writer (hfree.imp id And.right)
    have hholds' : Threads.count Status.holds (s.move t (.holding type) rwl).status =
        Threads.count Status.holds s.status + 1 := hholds
    rw [hnone] at hwrites
    refine ⟨?_, fun hpos => ?_, fun _ => ?_⟩
    · exact hactive.trans (heq ▸ hholds'.symm)
    · cases type with
      | read => exact absurd hpos (by rw [show Threads.count Status.writes _ = 0 from hwrites]; omega)
      | write => exact hactive.trans (by rw [hfree.resolve_right (fun h => LockType.noConfusion h.1)])
    · rw [show (s.move t (Outcome.success.status type) rwl).rwl.type = type from htype]
      cases type with
      | read => simp [show Threads.count Status.writes _ = 0 from hwrites]
      | write => simp [show Threads.count Status.writes _ = 0 + 1 from hwrites]
  have hstay : (o.status type).holds = false ∧ (o.status type).writes = false := by
    cases o with
    | success => exact absurd rfl ho
    | lockbusy => exact ⟨rfl, rfl⟩
    | wait => exact ⟨rfl, rfl⟩
  rw [hstay.1] at hholds
  rw [hstay.2] at hwrites
  have hholds' : Threads.count Status.holds (s.move t (o.status type) rwl).status = Threads.count Status.holds s.status := hholds
  have hwrites' : Threads.count Status.writes (s.move t (o.status type) rwl).status = Threads.count Status.writes s.status :=
    hwrites
  refine ⟨?_, ?_, ?_⟩
  · rw [hholds']
    exact hactive.trans heq
  · rw [hwrites']
    exact fun hpos => hactive.trans (h.alone hpos)
  · rw [hwrites', show (s.move t (o.status type) rwl).rwl = rwl from rfl, hactive, htype]
    exact h.type_eq

theorem Inv.holder (h : Inv s) (ht : s.status t = .holding type) : 0 < s.rwl.active ∧ s.rwl.type = type := by
  have hholds : (s.status t).holds = true := by
    rw [ht]
    rfl
  have hpos : 0 < s.rwl.active := h.active_eq ▸ Threads.count_pos hholds
  refine ⟨hpos, ?_⟩
  cases type with
  | write => exact (h.type_eq hpos).2 (Threads.count_pos (writes_iff.2 ht))
  | read =>
    cases htype : s.rwl.type with
    | read => rfl
    | write =>
      -- a writer is alone, and so it would be this thread
      have hw := (h.type_eq hpos).1 htype
      obtain ⟨u, hu⟩ := Threads.exists_of_count_pos hw
      have hone : Threads.count Status.holds s.status ≤ 1 := by
        rw [← h.active_eq, h.alone hw]
      have huholds : (s.status u).holds = true := by
        rw [writes_iff.1 hu]
        rfl
      have heq := Threads.eq_of_count_le_one hone hholds huholds
      rw [← heq, ht] at hu
      cases hu

omit [Fintype T] in
theorem move_self (ht : s.status t = x) : s.move t x s.rwl = s := by
  rw [State.move, ← ht, Function.update_eq_self]

theorem tryupgrade_inv (h : Inv s) (ht : s.status t = .holding .read) : ∃ o rwl, tryupgrade s.rwl = .ok (o, rwl) ∧
      Inv (s.move t (.holding (if o = .success then .write else .read)) rwl) := by
  obtain ⟨hpos, htype⟩ := h.holder ht
  have hnone := h.no_writer (.inr htype)
  rw [tryupgrade, require_true (by rw [htype]; rfl), ok_then, require_true (by simpa using hpos.ne'), ok_then]
  by_cases hone : s.rwl.active = 1
  · rw [if_pos hone]
    refine ⟨_, _, rfl, ?_⟩
    rw [if_pos rfl]
    obtain ⟨hholds, hwrites⟩ := counts_move s t (.holding .write)
      { s.rwl with original := if s.rwl.original = none then some .read else none, type := .write }
    rw [ht] at hholds hwrites
    simp only [Status.holds, Status.writes, toNat_true, toNat_false, hnone] at hholds hwrites
    have heq := h.active_eq
    refine ⟨?_, fun _ => hone, fun _ => ?_⟩
    · exact heq.trans (by omega)
    · exact iff_of_true rfl (by omega)
  rw [if_neg hone]
  refine ⟨_, _, rfl, ?_⟩
  rw [if_neg Outcome.noConfusion, move_self ht]
  exact h

theorem downgrade_inv (h : Inv s) (ht : s.status t = .holding .write) :
    ∃ rwl, downgrade s.rwl = .ok rwl ∧ Inv (s.move t (.holding .read) rwl) := by
  obtain ⟨hpos, htype⟩ := h.holder ht
  have hone := h.alone ((h.type_eq hpos).1 htype)
  rw [downgrade, require_true (by rw [htype]; rfl), ok_then, require_true (by rw [hone]; rfl), ok_then]
  refine ⟨_, rfl, ?_⟩
  obtain ⟨hholds, hwrites⟩ := counts_move s t (.holding .read)
    { s.rwl with type := .read, original := if s.rwl.original = none then some .write else none }
  rw [ht] at hholds hwrites
  simp only [Status.holds, Status.writes, toNat_true, toNat_false] at hholds hwrites
  have heq := h.active_eq
  have hle := count_writes_le s
  refine ⟨?_, fun hw => ?_, fun _ => ?_⟩
  · exact heq.trans (by omega)
  · exact hone
  · refine iff_of_false LockType.noConfusion ?_
    omega

theorem unlockLast_active (rwl : Rwl) : (unlockLast rwl).active = rwl.active ∧ (unlockLast rwl).original = none := by
  unfold unlockLast
  simp only
  split
  · exact ⟨rfl, rfl⟩
  split
  · split
    · exact ⟨rfl, rfl⟩
    · exact ⟨rfl, rfl⟩
  · exact ⟨rfl, rfl⟩

theorem unlock_inv (h : Inv s) (ht : s.status t = .holding type) :
    (Orderly s .unlock → ∃ rwl, unlock s.rwl type = .ok rwl ∧ Inv (s.move t .out rwl)) ∧
      (¬Orderly s .unlock → unlock s.rwl type = .error .assertion) := by
  obtain ⟨hpos, htype⟩ := h.holder ht
  have heq := h.active_eq
  have hle := count_writes_le s
  rw [unlock, require_true (by rw [htype]; exact beq_self_eq_true type), ok_then, require_true (by simpa using hpos), ok_then]
  by_cases hlast : (drop s.rwl).active = 0
  · have hone : s.rwl.active = 1 := by
      have hlast : s.rwl.active - 1 = 0 := hlast
      omega
    obtain ⟨hactive, horiginal⟩ := unlockLast_active (drop s.rwl)
    rw [leave, if_pos hlast, horiginal]
    refine ⟨fun _ => ⟨_, rfl, ?_⟩, fun hno => absurd (.inr hone) hno⟩
    obtain ⟨hholds, hwrites⟩ := counts_move s t .out (unlockLast (drop s.rwl))
    rw [ht] at hholds
    simp only [Status.holds, toNat_true, toNat_false] at hholds
    have hle' := count_writes_le (s.move t .out (unlockLast (drop s.rwl)))
    have hzero : (s.move t .out (unlockLast (drop s.rwl))).rwl.active = 0 := hactive.trans hlast
    refine ⟨?_, fun hw => ?_, fun hp => ?_⟩
    · rw [hzero]
      omega
    · omega
    · omega
  have hmore : s.rwl.active - 1 ≠ 0 := hlast
  rw [leave, if_neg hlast]
  have hread : Threads.count Status.writes s.status = 0 := by
    by_contra hw
    have := h.alone (by omega)
    omega
  have hsame : type = .read := by
    cases type with
    | read => rfl
    | write => exact absurd ((h.type_eq hpos).1 htype) (by omega)
  subst hsame
  constructor
  · intro horderly
    have hnone : (drop s.rwl).original = none := horderly.resolve_right (by omega)
    rw [hnone]
    refine ⟨_, rfl, ?_⟩
    obtain ⟨hholds, hwrites⟩ := counts_move s t .out (drop s.rwl)
    rw [ht] at hholds hwrites
    simp only [Status.holds, Status.writes, toNat_true, toNat_false, hread] at hholds hwrites
    have hactive : (s.move t .out (drop s.rwl)).rwl.active = s.rwl.active - 1 := rfl
    refine ⟨by omega, fun hw => by omega, fun _ => iff_of_false ?_ (by omega)⟩
    rw [show (s.move t .out (drop s.rwl)).rwl.type = s.rwl.type from rfl, htype]
    exact LockType.noConfusion
  · intro hno
    have hsome : ((drop s.rwl).original == none) = false := by
      rw [beq_eq_false_iff_ne]
      exact fun hnone => hno (.inl hnone)
    rw [hsome]
    rfl

/-- A section that follows the protocol ends without an assertion failure exactly if it is in order, and keeps the
invariant. -/
theorem step_inv (h : Inv s) {a : Action} (ha : Protocol (s.status t) a) :
    (Orderly s a → ∃ s', step s t a = .ok s' ∧ Inv s') ∧ (¬Orderly s a → step s t a = .error .assertion) := by
  cases hs : s.status t with
  | out =>
    rw [hs] at ha
    have ht : (s.status t).holds = false := by
      rw [hs]
      rfl
    cases a with
    | lock type => exact ⟨fun _ => ⟨_, by rw [step], h.taken ht (doit_taken s.rwl type false)⟩, fun hno => absurd trivial hno⟩
    | trylock type => exact ⟨fun _ => ⟨_, by rw [step], h.taken ht (doit_taken s.rwl type true)⟩, fun hno => absurd trivial hno⟩
    | _ => exact absurd ha id
  | waiting type =>
    rw [hs] at ha
    have ht : (s.status t).holds = false := by
      rw [hs]
      rfl
    cases a with
    | wake =>
      refine ⟨fun _ => ⟨s.move t ((doitAgain s.rwl type).1.status type) (doitAgain s.rwl type).2, ?_,
        h.taken ht (doitAgain_taken s.rwl type)⟩, fun hno => absurd trivial hno⟩
      simp only [step, hs]
    | _ => exact absurd ha id
  | holding type =>
    cases a with
    | tryupgrade =>
      cases type with
      | write =>
        rw [hs] at ha
        exact absurd ha id
      | read =>
        obtain ⟨o, rwl, hrun, hinv⟩ := tryupgrade_inv h hs
        refine ⟨fun _ => ⟨_, ?_, hinv⟩, fun hno => absurd trivial hno⟩
        rw [step, hrun]
        rfl
    | downgrade =>
      cases type with
      | read =>
        rw [hs] at ha
        exact absurd ha id
      | write =>
        obtain ⟨rwl, hrun, hinv⟩ := downgrade_inv h hs
        refine ⟨fun _ => ⟨_, ?_, hinv⟩, fun hno => absurd trivial hno⟩
        rw [step, hrun]
        rfl
    | unlock =>
      have hstep : step s t .unlock = unlock s.rwl type >>= fun rwl => pure (s.move t .out rwl) := by
        simp only [step, hs]
      obtain ⟨hok, hfail⟩ := unlock_inv h hs
      rw [hstep]
      constructor
      · intro horderly
        obtain ⟨rwl, hrun, hinv⟩ := hok horderly
        rw [hrun]
        exact ⟨_, rfl, hinv⟩
      · intro hno
        rw [hfail hno]
        rfl
    | _ =>
      rw [hs] at ha
      cases type <;> exact absurd ha id

theorem Reach.inv {readQuota writeQuota : UInt32} (h : Reach readQuota writeQuota s) : Inv s := by
  induction h with
  | init =>
    have hcount : ∀ p : Status → Bool, p .out = false → Threads.count p (fun _ : T => Status.out) = 0 :=
      fun p hp => Threads.count_eq_zero.2 (fun _ => hp)
    refine ⟨(hcount _ rfl).symm, fun hpos => ?_, fun hpos => absurd hpos (Nat.lt_irrefl 0)⟩
    rw [hcount _ rfl] at hpos
    exact absurd hpos (Nat.lt_irrefl 0)
  | @step s s' t a _ ha hstep ih =>
    obtain ⟨hok, hfail⟩ := step_inv ih ha
    by_cases horderly : Orderly s a
    · obtain ⟨s', hrun, hinv⟩ := hok horderly
      rw [hrun] at hstep
      cases hstep
      exact hinv
    · rw [hfail horderly] at hstep
      cases hstep

/-- **Exclusion.**  In every reachable state the lock excludes, and a section that follows the protocol ends without an
assertion failure exactly if it is not an unlock of a converted lock that other threads hold too. -/
theorem rwlock_excludes (readQuota writeQuota : UInt32) (s : State T) (h : Reach readQuota writeQuota s) :
    Sound s ∧ ∀ t a, Protocol (s.status t) a → ((∃ s', step s t a = .ok s') ↔ Orderly s a) := by
  refine ⟨h.inv.sound, fun t a ha => ?_⟩
  obtain ⟨hok, hfail⟩ := step_inv h.inv ha
  constructor
  · rintro ⟨s', hrun⟩
    by_contra hno
    rw [hfail hno] at hrun
    cases hrun
  · intro horderly
    obtain ⟨s', hrun, -⟩ := hok horderly
    exact ⟨s', hrun⟩

end sound

theorem reach_downgraded : ∃ s : State (Fin 2), Reach 0 0 s ∧ s.status 0 = .holding .read ∧ s.rwl.original = some .write ∧
    s.rwl.active = 1 :=
  ⟨_, .step (t := 0) (a := .downgrade) (.step (t := 0) (a := .lock .write) .init trivial rfl) trivial rfl, rfl, rfl, rfl⟩

/-- When a reader has joined, the first of the two holders that unlocks fails. -/
theorem unlock_after_downgrade_fails : ¬∀ s : State (Fin 2), Reach 0 0 s →
    Sound s ∧ ∀ t a, Protocol (s.status t) a → step s t a ≠ .error .assertion := by
  intro h
  have hreach : Reach 0 0 _ := .step (t := (1 : Fin 2)) (a := .lock .read)
    (.step (t := (0 : Fin 2)) (a := .downgrade) (.step (t := 0) (a := .lock .write) .init trivial rfl) trivial rfl) trivial rfl
  exact (h _ hreach).2 0 .unlock trivial rfl

theorem rwlock_excludes_downgraded : ∃ s : State (Fin 2), (s.status 0 = .holding .read ∧ Sound s) ∧
    ∃ s', step s 0 .unlock = .ok s' := by
  obtain ⟨s, hreach, hstatus, -, hactive⟩ := reach_downgraded
  obtain ⟨hsound, horderly⟩ := rwlock_excludes 0 0 s hreach
  refine ⟨s, ⟨hstatus, hsound⟩, (horderly 0 .unlock ?_).2 (.inr hactive)⟩
  rw [hstatus]
  trivial

end Bind9.Rwlock
