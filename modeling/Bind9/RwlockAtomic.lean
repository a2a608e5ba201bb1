import Bind9.Lib.Threads
import Bind9.Region

/-! # The read/write lock with atomic operations

The algorithm of `lib/isc/rwlock.c` for machines with `xadd` and `cmpxchg`.  A step is one atomic operation, one load of a
shared variable, or one section under the mutex, up to its `WAIT`; a thread that waits may wake up at any time.  `Place` says
which operation a thread does next, in the order of the source.

Readers announce themselves in `cnt_and_flag` before they look for a writer.  Writers take a ticket from `write_requests`
and wait until `write_completions` has come to it; `isc_rwlock_trylock` and `isc_rwlock_tryupgrade` jump the queue and
move `write_completions` back while they hold the lock.

Two variables of the model are not in the source: the threads that took a ticket (`entered`) and those that got the lock
with a ticket (`obtained`), both in the order in which they did. -/

namespace Bind9.RwlockAtomic

/-- The operation that a thread does next.  A ticket is counted without end; the code has its last 32 bits. -/
inductive Place where
  | idle
  -- `isc_rwlock_lock` for reading, from the load of `write_completions` on
  | readTest (requests : UInt32)
  | readMutex
  | readWait
  | readAnnounce
  | readCheck
  | readBlock
  | readSleep
  | readGrant
  | reading
  -- `isc_rwlock_lock` for writing, with a ticket
  | writeTurn (ticket : ℕ)
  | writeMutex (ticket : ℕ)
  | writeWait (ticket : ℕ)
  | writeTake (ticket : ℕ)
  | writeBlock (ticket : ℕ)
  | writeSleep (ticket : ℕ)
  | writeInsist
  | writeGrant
  | writing
  -- `isc_rwlock_trylock`
  | tryReadTest (requests : UInt32)
  | tryReadAnnounce
  | tryReadUndo
  | tryReadLoad
  | tryReadCompare (completions : UInt32)
  | tryReadWake
  | tryWriteJump
  | tryWriteGrant
  -- `isc_rwlock_tryupgrade` and `isc_rwlock_downgrade`
  | upgradeJump
  | downgradeFlag
  | downgradeComplete
  | downgradeWake
  -- `isc_rwlock_unlock`
  | unlockReadLoad
  | unlockReadCompare (completions : UInt32)
  | unlockReadWake
  | unlockComplete
  | unlockQuota
  | unlockRequests
  | unlockCompletions (requests : UInt32)
  | unlockReaders
  | unlockReadable
  | unlockLoad (wakeup : Bool)
  | unlockCompare (wakeup : Bool) (requests : UInt32)
  | unlockWake
deriving DecidableEq, Repr

/-- The calls, and going on with a call. -/
inductive Action where
  | lockRead
  | lockWrite
  | trylockRead
  | trylockWrite
  | tryupgrade
  | downgrade
  | unlockRead
  | unlockWrite
  | next
deriving DecidableEq, Repr

/-- Where a thread makes a call: it locks when it holds nothing, upgrades a read lock, downgrades a write lock and unlocks
what it holds. -/
def Action.place : Action → Place
  | .tryupgrade | .unlockRead => .reading
  | .downgrade | .unlockWrite => .writing
  | _ => .idle

def Protocol (p : Place) (a : Action) : Prop :=
  if a = .next then p ≠ .idle ∧ p ≠ .reading ∧ p ≠ .writing else p = a.place

instance (p : Place) (a : Action) : Decidable (Protocol p a) :=
  inferInstanceAs (Decidable (if a = .next then p ≠ .idle ∧ p ≠ .reading ∧ p ≠ .writing else p = a.place))

/-- `isc_rwlock_t` and the threads. -/
structure State (T : Type) where
  writeRequests : UInt32
  writeCompletions : UInt32
  cntAndFlag : UInt32
  readersWaiting : ℕ
  writeGranted : UInt32
  writeQuota : UInt32
  place : T → Place
  entered : List T
  obtained : List T

def writerActive : UInt32 := 1

def readerIncr : UInt32 := 2

def defaultWriteQuota : UInt32 := 4

def init (T : Type) (writeQuota : UInt32) : State T :=
  ⟨0, 0, 0, 0, 0, if writeQuota = 0 then defaultWriteQuota else writeQuota, fun _ => .idle, [], []⟩

variable {T : Type} [DecidableEq T]

/-- A thread goes to its next operation. -/
def State.goto (s : State T) (t : T) (p : Place) : State T := { s with place := Function.update s.place t p }

/-- Is a writer working? -/
def State.flag (s : State T) : Bool := s.cntAndFlag &&& writerActive != 0

/-- The first operation of a call. -/
def start (s : State T) (t : T) : Action → Exec (State T)
  | .lockRead => .ok (s.goto t (.readTest s.writeRequests))
  | .lockWrite =>
    .ok ({ s with writeRequests := s.writeRequests + 1, entered := s.entered ++ [t] }.goto t (.writeTurn s.entered.length))
  | .trylockRead => .ok (s.goto t (.tryReadTest s.writeRequests))
  | .trylockWrite =>
    if s.cntAndFlag = 0 then .ok ({ s with cntAndFlag := writerActive }.goto t .tryWriteJump) else .ok (s.goto t .idle)
  | .tryupgrade => do
    require (!s.flag && s.cntAndFlag &&& ~~~writerActive != 0)
    pure (if s.cntAndFlag = readerIncr then { s with cntAndFlag := writerActive }.goto t .upgradeJump else s.goto t .reading)
  | .downgrade => do
    require s.flag
    pure ({ s with cntAndFlag := s.cntAndFlag + readerIncr }.goto t .downgradeFlag)
  | .unlockRead =>
    .ok ({ s with cntAndFlag := s.cntAndFlag - readerIncr }.goto t
      (if s.cntAndFlag = readerIncr then .unlockReadLoad else .idle))
  | .unlockWrite => .ok ({ s with cntAndFlag := s.cntAndFlag - writerActive }.goto t .unlockComplete)
  | .next => .ok s

/-- The other operations. -/
def advance (s : State T) (t : T) : Exec (State T) :=
  match s.place t with
  | .idle | .reading | .writing => .ok s
  | .readTest requests => .ok (s.goto t (if requests ≠ s.writeCompletions then .readMutex else .readAnnounce))
  | .readMutex =>
    if s.writeRequests ≠ s.writeCompletions then
      .ok ({ s with readersWaiting := s.readersWaiting + 1 }.goto t .readWait)
    else .ok (s.goto t .readAnnounce)
  | .readWait => .ok ({ s with readersWaiting := s.readersWaiting - 1 }.goto t .readAnnounce)
  | .readAnnounce => .ok ({ s with cntAndFlag := s.cntAndFlag + readerIncr }.goto t .readCheck)
  | .readCheck => .ok (s.goto t (if s.flag then .readBlock else .readGrant))
  | .readBlock =>
    if s.flag then .ok ({ s with readersWaiting := s.readersWaiting + 1 }.goto t .readSleep) else .ok (s.goto t .readCheck)
  | .readSleep => .ok ({ s with readersWaiting := s.readersWaiting - 1 }.goto t .readCheck)
  | .readGrant => .ok ({ s with writeGranted := 0 }.goto t .reading)
  | .writeTurn n => .ok (s.goto t (if s.writeCompletions ≠ UInt32.ofNat n then .writeMutex n else .writeTake n))
  | .writeMutex n => .ok (s.goto t (if s.writeCompletions ≠ UInt32.ofNat n then .writeWait n else .writeTake n))
  | .writeWait n => .ok (s.goto t (.writeTurn n))
  | .writeTake n =>
    if s.cntAndFlag = 0 then
      .ok ({ s with cntAndFlag := writerActive, obtained := s.obtained ++ [t] }.goto t .writeInsist)
    else .ok (s.goto t (.writeBlock n))
  | .writeBlock n => .ok (s.goto t (if s.cntAndFlag ≠ 0 then .writeSleep n else .writeTake n))
  | .writeSleep n => .ok (s.goto t (.writeTake n))
  | .writeInsist => do
    require s.flag
    pure (s.goto t .writeGrant)
  | .writeGrant => .ok ({ s with writeGranted := s.writeGranted + 1 }.goto t .writing)
  | .tryReadTest requests => .ok (s.goto t (if requests ≠ s.writeCompletions then .idle else .tryReadAnnounce))
  | .tryReadAnnounce =>
    .ok ({ s with cntAndFlag := s.cntAndFlag + readerIncr }.goto t (if s.flag then .tryReadUndo else .reading))
  | .tryReadUndo =>
    .ok ({ s with cntAndFlag := s.cntAndFlag - readerIncr }.goto t
      (if s.cntAndFlag = readerIncr then .tryReadLoad else .idle))
  | .tryReadLoad => .ok (s.goto t (.tryReadCompare s.writeCompletions))
  | .tryReadCompare completions => .ok (s.goto t (if completions ≠ s.writeRequests then .tryReadWake else .idle))
  | .tryReadWake => .ok (s.goto t .idle)
  | .tryWriteJump => .ok ({ s with writeCompletions := s.writeCompletions - 1 }.goto t .tryWriteGrant)
  | .tryWriteGrant => .ok ({ s with writeGranted := s.writeGranted + 1 }.goto t .writing)
  | .upgradeJump => .ok ({ s with writeCompletions := s.writeCompletions - 1 }.goto t .writing)
  | .downgradeFlag => .ok ({ s with cntAndFlag := s.cntAndFlag - writerActive }.goto t .downgradeComplete)
  | .downgradeComplete => .ok ({ s with writeCompletions := s.writeCompletions + 1 }.goto t .downgradeWake)
  | .downgradeWake => .ok (s.goto t .reading)
  | .unlockReadLoad => .ok (s.goto t (.unlockReadCompare s.writeCompletions))
  | .unlockReadCompare completions => .ok (s.goto t (if completions ≠ s.writeRequests then .unlockReadWake else .idle))
  | .unlockReadWake => .ok (s.goto t .idle)
  | .unlockComplete => .ok ({ s with writeCompletions := s.writeCompletions + 1 }.goto t .unlockQuota)
  | .unlockQuota => .ok (s.goto t (if s.writeGranted ≥ s.writeQuota then .unlockReadable else .unlockRequests))
  | .unlockRequests => .ok (s.goto t (.unlockCompletions s.writeRequests))
  | .unlockCompletions requests => .ok (s.goto t (if requests = s.writeCompletions then .unlockReadable else .unlockReaders))
  | .unlockReaders =>
    .ok (s.goto t (if s.cntAndFlag &&& ~~~writerActive ≠ 0 then .unlockReadable else .unlockLoad true))
  | .unlockReadable => .ok (s.goto t (.unlockLoad (decide (s.readersWaiting = 0))))
  | .unlockLoad wakeup => .ok (s.goto t (.unlockCompare wakeup s.writeRequests))
  | .unlockCompare wakeup requests =>
    .ok (s.goto t (if requests ≠ s.writeCompletions ∧ wakeup then .unlockWake else .idle))
  | .unlockWake => .ok (s.goto t .idle)

def step (s : State T) (t : T) (a : Action) : Exec (State T) :=
  if a = .next then advance s t else start s t a

/-- The states that threads reach that follow the protocol. -/
inductive Reach (writeQuota : UInt32) : State T → Prop
  | init : Reach writeQuota (init T writeQuota)
  | step {s s' : State T} {t : T} {a : Action} : Reach writeQuota s → Protocol (s.place t) a → step s t a = .ok s' →
      Reach writeQuota s'

end Bind9.RwlockAtomic
