import Bind9.IscList

/-! # The task manager

`lib/isc/task.c` with worker threads.  A step is one section under a lock, up to its `WAIT` or its end; a thread that waits
may wake up at any time.  `Work` says where a thread is in `dispatch`, `Call` where it is in another function; an action of
an event may make calls, so that a worker has both.  `isc__taskmgr_destroy` takes the locks of the tasks one by one while it
holds that of the manager (`walk`); meanwhile there are no other sections under the lock of the manager.

`ready_priority_tasks` is the list of pointers that it is in the source, since `isc__task_setprivilege` may append a task that
is linked there.

The addresses of tasks are of any type, and one that is free may be used again.  A caller has references of its own
(`held`), which it may give to other threads.  An event without an action is one whose action does nothing.  Counters are
natural numbers, and signals are left out since they only wake up threads.

A task has a history that is not in the source: the events that were sent, those that were put into its queue, those taken
from it to be executed or purged, and those registered for its shutdown. -/

namespace Bind9.Taskmgr

open Function

inductive TaskState where
  | idle
  | ready
  | running
  | done
deriving DecidableEq, Repr

inductive Mode where
  | normal
  | privileged
deriving DecidableEq, Repr

/-- An `isc_event_t` at an address; no sender and no tag are 0. -/
structure Event where
  addr : ℕ
  evType : ℕ
  evSender : ℕ
  evTag : ℕ
  noPurge : Bool
deriving DecidableEq, Repr

structure Task where
  state : TaskState
  references : ℕ
  events : List Event
  onShutdown : List Event
  quantum : ℕ
  shuttingDown : Bool
  privileged : Bool
  sent : List Event
  posted : List Event
  executed : List Event
  dropped : List Event
  registered : List Event
deriving DecidableEq, Repr

/-- A task that was freed, or never created. -/
def Task.free : Task := ⟨.done, 0, [], [], 0, true, false, [], [], [], [], []⟩

def Task.new (quantum : ℕ) : Task := ⟨.idle, 1, [], [], quantum, false, false, [], [], [], [], []⟩

/-! ### Under the lock of a task -/

/-- `task_shutdown`, with `was_idle`. -/
def taskShutdown (x : Task) : Exec (Task × Bool) :=
  if x.shuttingDown then .ok (x, false)
  else do
    let wasIdle := x.state == .idle
    require (!wasIdle || x.events.isEmpty)
    let state := if wasIdle then .ready else x.state
    require (state == .ready || state == .running)
    -- the events are posted last registered first
    return ({ x with
      shuttingDown := true
      state := state
      events := x.events ++ x.onShutdown.reverse
      posted := x.posted ++ x.onShutdown.reverse
      onShutdown := [] }, wasIdle)

def taskDetach (x : Task) : Exec (Task × Bool) := do
  require (0 < x.references)
  let x := { x with references := x.references - 1 }
  if x.references = 0 ∧ x.state = .idle then
    require x.events.isEmpty
    return ({ x with state := .ready }, true)
  else return (x, false)

def taskSend (event : Event) (x : Task) : Exec (Task × Bool) := do
  require (0 < event.evType)
  require (x.state != .done)
  let wasIdle := x.state == .idle
  require (!wasIdle || x.events.isEmpty)
  let state := if wasIdle then .ready else x.state
  require (state == .ready || state == .running)
  return ({ x with
    state := state
    events := x.events ++ [event]
    posted := x.posted ++ [event]
    sent := x.sent ++ [event] }, wasIdle)

def taskSendanddetach (event : Event) (x : Task) : Exec (Task × Bool) := do
  let (x, idle1) ← taskSend event x
  let (x, idle2) ← taskDetach x
  require (!(idle1 && idle2))
  return (x, idle1 || idle2)

/-- Taking the events with `p` from the queue. -/
def Task.remove (p : Event → Bool) (x : Task) : Task :=
  { x with events := x.events.filter (fun e => !p e), dropped := x.dropped ++ x.events.filter p }

/-- The events of `dequeue_events`. -/
def matching (sender first last tag : ℕ) (purging : Bool) (e : Event) : Bool :=
  first ≤ e.evType && e.evType ≤ last && (sender == 0 || e.evSender == sender) && (tag == 0 || e.evTag == tag) &&
    (!purging || !e.noPurge)

def taskPurgeevent (event : Event) (x : Task) : Task :=
  if event ∈ x.events ∧ event.noPurge = false then
    { x with events := x.events.erase event, dropped := x.dropped ++ [event] }
  else x

def taskOnshutdown (event : Event) (x : Task) : Task :=
  if x.shuttingDown then x
  else { x with onShutdown := x.onShutdown ++ [event], registered := x.registered ++ [event] }

/-- What a worker does with a task after a section. -/
inductive Next where
  | act
  | idle
  | requeue
  | finished
deriving DecidableEq, Repr

/-- The head of the queue is taken and executed. -/
def Task.take (x : Task) : Task :=
  { x with events := x.events.tail, executed := x.executed ++ x.events.head?.toList }

/-- In the loop of `dispatch`: a task without references and events is shut down. -/
def taskOrphan (x : Task) : Exec Task :=
  if x.references = 0 ∧ x.events = [] ∧ x.shuttingDown = false then do
    let (x, wasIdle) ← taskShutdown x
    require (!wasIdle)
    return x
  else .ok x

/-- The end of the loop with `dispatch_count`, and the start of its next turn. -/
def taskNext (dispatchCount : ℕ) (x : Task) : Task × Next :=
  if x.events = [] then
    if x.references = 0 ∧ x.shuttingDown = true then ({ x with state := .done }, .finished)
    else ({ x with state := .idle }, .idle)
  else if dispatchCount ≥ x.quantum then ({ x with state := .ready }, .requeue)
  else (x.take, .act)

/-- The body of the loop of `dispatch` behind an event. -/
def taskTail (dispatchCount : ℕ) (x : Task) : Exec (Task × Next) := do
  return taskNext dispatchCount (← taskOrphan x)

/-- The section of `dispatch` from the lock of the task to the first event. -/
def taskBegin (x : Task) : Exec (Task × Next) := do
  require (x.state == .ready)
  let x := { x with state := .running }
  if x.events = [] then taskTail 0 x else return (x.take, .act)

/-! ### Threads -/

variable {T K : Type}

/-- Where a thread is in `dispatch`. -/
inductive Work (K : Type) where
  | outside
  | start
  | waiting
  | popped (k : K)
  | acting (k : K) (dispatchCount : ℕ)
  | finished (k : K)
  | ending (requeue : Option K)
  | exited
deriving DecidableEq, Repr

/-- Where a thread is in another function. -/
inductive Call (K : Type) where
  | none
  -- before `task_ready`, in `isc__task_destroy` or not
  | ready (k : K) (destroy : Bool)
  -- `isc__task_destroy` before it detaches
  | detach (k : K)
  -- `isc__task_setprivilege` between its sections
  | privilege (k : K) (priv : Bool)
  -- waiting for `exclusive_granted`, or for `paused`
  | exclusive
  | pause
  -- `isc__taskmgr_destroy`
  | destroying
deriving DecidableEq, Repr

inductive Turn (K : Type) where
  | wait
  | pop (k : K)
  | exit (drop : Bool)
deriving DecidableEq, Repr

inductive Action (T K : Type) where
  | create (k : K) (quantum : ℕ)
  | attach (k : K)
  | detach (k : K)
  | send (k : K) (event : Event)
  | sendanddetach (k : K) (event : Event)
  | purgerange (k : K) (sender first last tag : ℕ)
  | purgeevent (k : K) (event : Event)
  | unsendrange (k : K) (sender first last tag : ℕ)
  | onshutdown (k : K) (event : Event)
  | shutdown (k : K)
  | destroy (k : K)
  | beginexclusive (k : K)
  | endexclusive (k : K)
  | pause
  | resume
  | setprivilege (k : K) (priv : Bool)
  | setmode (mode : Mode)
  | taskmgrDestroy
  -- a thread starts `dispatch`
  | dispatch
  -- a reference goes to another thread
  | give (u : T) (k : K)
  -- the next section of a call, or of `dispatch`
  | next
  | work
deriving DecidableEq, Repr

/-- `isc__taskmgr_t` with its tasks, and the threads. -/
structure State (T K : Type) where
  task : K → Task
  tasks : List K
  readyTasks : List K
  readyPriorityTasks : IscList K
  mode : Mode
  tasksRunning : ℕ
  pauseRequested : Bool
  exclusiveRequested : Bool
  exiting : Bool
  defaultQuantum : ℕ
  walk : Option (List K)
  work : T → Work K
  call : T → Call K
  held : K → T → ℕ

/-- `isc__taskmgr_create`. -/
def init (T K : Type) (defaultQuantum : ℕ) : State T K :=
  ⟨fun _ => .free, [], [], .empty, .normal, 0, false, false, false, if defaultQuantum = 0 then 5 else defaultQuantum, none,
    fun _ => .outside, fun _ => .none, fun _ _ => 0⟩

variable [DecidableEq T] [DecidableEq K]

namespace State

variable (s : State T K)

def setTask (k : K) (x : Task) : State T K := { s with task := update s.task k x }

def setWork (t : T) (w : Work K) : State T K := { s with work := update s.work t w }

def setCall (t : T) (c : Call K) : State T K := { s with call := update s.call t c }

/-- The number of references of a thread. -/
def setHeld (k : K) (t : T) (n : ℕ) : State T K :=
  { s with held := update s.held k (update (s.held k) t n) }

/-! ### Under the lock of the manager -/

def isFinished : Bool := s.exiting && s.tasks.isEmpty

/-- The head of the ready list of the mode; `empty_readyq` is that there is none. -/
def readyq : Option K := if s.mode = .normal then s.readyTasks.head? else s.readyPriorityTasks.head

def pushReadyq (k : K) : State T K :=
  { s with
    readyTasks := s.readyTasks ++ [k]
    readyPriorityTasks := if (s.task k).privileged then s.readyPriorityTasks.enqueue k else s.readyPriorityTasks }

/-- `pop_readyq` for the task that it finds.  One that is not in `ready_tasks` has no links there to follow. -/
def popReadyq (k : K) : Exec (State T K) :=
  if k ∈ s.readyTasks then do
    let priority ← s.readyPriorityTasks.dequeueLinked k
    return { s with readyTasks := s.readyTasks.erase k, readyPriorityTasks := priority }
  else .error .overrun

/-- The mode is dropped when nothing runs and the ready list is empty. -/
def dropMode : State T K :=
  if s.tasksRunning = 0 ∧ s.readyq = none then { s with mode := .normal } else s

/-- What `dispatch` does from its inner loop on.  When there is no task the manager is finished. -/
def innerTurn : Turn K :=
  if (s.readyq.isNone || s.pauseRequested || s.exclusiveRequested) && !s.isFinished then .wait
  else match s.readyq with
    | some k => .pop k
    | none => .exit true

/-- What `dispatch` does from its outer loop on. -/
def outerTurn : Turn K := if s.isFinished then .exit false else s.innerTurn

def turn (t : T) : Turn K → Exec (State T K)
  | .wait => .ok (s.setWork t .waiting)
  | .pop k => do
    let s ← s.popReadyq k
    return { s with tasksRunning := s.tasksRunning + 1 }.setWork t (.popped k)
  | .exit drop => .ok ((if drop then s.dropMode else s).setWork t .exited)

def dispatchInner (t : T) : Exec (State T K) := s.turn t s.innerTurn

def dispatchOuter (t : T) : Exec (State T K) := s.turn t s.outerTurn

/-- `dispatch` behind a task, and the next turn. -/
def dispatchEnd (t : T) (requeue : Option K) : Exec (State T K) :=
  let s := { s with tasksRunning := s.tasksRunning - 1 }
  let s := match requeue with
    | some k => s.pushReadyq k
    | none => s
  s.dropMode.dispatchOuter t

/-- `task_finished`; the memory is freed. -/
def taskFinished (k : K) : Exec (State T K) := do
  let x := s.task k
  require (x.events.isEmpty && x.onShutdown.isEmpty && x.references == 0 && x.state == .done)
  return { s with tasks := s.tasks.erase k }

end State

/-! ### Steps -/

def Next.work (k : K) (dispatchCount : ℕ) : Next → Work K
  | .act => .acting k dispatchCount
  | .idle => .ending none
  | .requeue => .ending (some k)
  | .finished => .finished k

variable (s : State T K)

def workStep (t : T) : Exec (State T K) :=
  match s.work t with
  | .outside | .exited => .ok s
  | .start => s.dispatchOuter t
  | .waiting => s.dispatchInner t
  | .popped k => do
    let (x, next) ← taskBegin (s.task k)
    return (s.setTask k x).setWork t (next.work k 0)
  | .acting k n => do
    let (x, next) ← taskTail (n + 1) (s.task k)
    return (s.setTask k x).setWork t (next.work k (n + 1))
  | .finished k => do return (← s.taskFinished k).setWork t (.ending none)
  | .ending requeue => s.dispatchEnd t requeue

/-- `beginexclusive` behind the request. -/
def exclusiveWait (t : T) : State T K :=
  s.setCall t (if 1 < s.tasksRunning then .exclusive else .none)

def pauseWait (t : T) : State T K :=
  if 0 < s.tasksRunning then s.setCall t .pause else { s with pauseRequested := true }.setCall t .none

/-- A section on one task that may find it idle. -/
def onTask (t : T) (k : K) (f : Task → Exec (Task × Bool)) (idle other : Call K) :
    Exec (State T K) := do
  let (x, wasIdle) ← f (s.task k)
  return (s.setTask k x).setCall t (if wasIdle then idle else other)

/-- The section of a detach; the reference is given up. -/
def detachStep (t : T) (k : K) (f : Task → Exec (Task × Bool)) : Exec (State T K) := do
  let s ← onTask s t k f (.ready k false) .none
  return s.setHeld k t (s.held k t - 1)

/-- The next section of a call. -/
def nextStep (t : T) : Exec (State T K) :=
  match s.call t with
  | .none => .ok s
  | .ready k destroy => do
    require ((s.task k).state == .ready)
    return (s.pushReadyq k).setCall t (if destroy then .detach k else .none)
  | .detach k => detachStep s t k taskDetach
  | .privilege k true =>
    -- `ENQUEUE` does not look whether the task is linked
    let priority := if k ∈ s.readyTasks then s.readyPriorityTasks.enqueue k else s.readyPriorityTasks
    .ok ({ s with readyPriorityTasks := priority }.setCall t .none)
  | .privilege k false => do
    let priority ← s.readyPriorityTasks.dequeueLinked k
    return { s with readyPriorityTasks := priority }.setCall t .none
  | .exclusive => .ok (exclusiveWait s t)
  | .pause => .ok (pauseWait s t)
  | .destroying =>
    match s.walk with
    | some (k :: rest) => do
      let (x, wasIdle) ← taskShutdown (s.task k)
      let s := { s.setTask k x with walk := some rest }
      return if wasIdle then s.pushReadyq k else s
    | _ => .ok ({ s with walk := none }.setCall t .none)

def step (t : T) : Action T K → Exec (State T K)
  | .create k quantum =>
    if s.exiting then .ok s
    else
      let quantum := if quantum = 0 then s.defaultQuantum else quantum
      .ok ({ s.setTask k (.new quantum) with
        tasks := s.tasks ++ [k]
        readyPriorityTasks := s.readyPriorityTasks.initLink k }.setHeld k t 1)
  | .attach k =>
    let x := s.task k
    .ok ((s.setTask k { x with references := x.references + 1 }).setHeld k t (s.held k t + 1))
  | .detach k => detachStep s t k taskDetach
  | .send k event => onTask s t k (taskSend event) (.ready k false) .none
  | .sendanddetach k event => detachStep s t k (taskSendanddetach event)
  | .purgerange k sender first last tag =>
    .ok (s.setTask k ((s.task k).remove (matching sender first last tag true)))
  | .purgeevent k event => .ok (s.setTask k (taskPurgeevent event (s.task k)))
  | .unsendrange k sender first last tag =>
    .ok (s.setTask k ((s.task k).remove (matching sender first last tag false)))
  | .onshutdown k event => .ok (s.setTask k (taskOnshutdown event (s.task k)))
  | .shutdown k => onTask s t k taskShutdown (.ready k false) .none
  | .destroy k => onTask s t k taskShutdown (.ready k true) (.detach k)
  | .beginexclusive k => do
    require ((s.task k).state == .running)
    return if s.exclusiveRequested then s else exclusiveWait { s with exclusiveRequested := true } t
  | .endexclusive k => do
    require ((s.task k).state == .running)
    require s.exclusiveRequested
    return { s with exclusiveRequested := false }
  | .pause => .ok (pauseWait s t)
  | .resume => .ok { s with pauseRequested := false }
  | .setprivilege k priv =>
    let x := s.task k
    let s := s.setTask k { x with privileged := priv }
    .ok (if x.privileged = priv then s else s.setCall t (.privilege k priv))
  | .setmode mode => .ok { s with mode := mode }
  | .taskmgrDestroy => do
    require (!s.exiting)
    return { s with exiting := true, mode := .normal, walk := some s.tasks }.setCall t .destroying
  | .dispatch => .ok (s.setWork t .start)
  | .give u k =>
    let s := s.setHeld k t (s.held k t - 1)
    .ok (s.setHeld k u (s.held k u + 1))
  | .next => nextStep s t
  | .work => workStep s t

/-! ### Runs -/

/-- A thread may make a call when it is in none, and is no worker or runs an action. -/
def mayCall (t : T) : Bool :=
  s.call t == .none && match s.work t with
    | .outside | .acting _ _ => true
    | _ => false

/-- A thread runs an action of the task. -/
def isActing (t : T) (k : K) : Bool :=
  match s.work t with
  | .acting k' _ => k' == k
  | _ => false

/-- The steps of callers that have a reference to the tasks that they name.  The lock of the manager is free, unless its
holder goes on. -/
def permitted (t : T) : Action T K → Bool
  | .create k _ => mayCall s t && s.walk.isNone && !s.tasks.contains k
  | .attach k | .detach k | .purgerange k _ _ _ _ | .purgeevent k _ | .unsendrange k _ _ _ _ | .onshutdown k _ | .shutdown k
  | .destroy k | .setprivilege k _ | .give _ k => mayCall s t && decide (0 < s.held k t)
  | .send k event | .sendanddetach k event => mayCall s t && decide (0 < s.held k t) && decide (0 < event.evType)
  | .beginexclusive k => mayCall s t && s.walk.isNone && isActing s t k
  | .endexclusive k => mayCall s t && s.walk.isNone && isActing s t k && s.exclusiveRequested
  | .pause | .resume | .setmode _ => mayCall s t && s.walk.isNone
  | .taskmgrDestroy => s.call t == .none && s.work t == .outside && s.walk.isNone && !s.exiting
  | .dispatch => s.call t == .none && s.work t == .outside
  | .next => match s.call t with
      | .none => false
      | .detach _ | .destroying => true
      | _ => s.walk.isNone
  | .work => s.call t == .none && match s.work t with
      | .outside | .exited => false
      | .popped _ | .acting _ _ => true
      | _ => s.walk.isNone

/-- The states that are reached by steps with `ok`. -/
inductive Reach (ok : State T K → T → Action T K → Prop) (defaultQuantum : ℕ) : State T K → Prop
  | init : Reach ok defaultQuantum (init T K defaultQuantum)
  | step {s s' : State T K} {t : T} {a : Action T K} : Reach ok defaultQuantum s → permitted s t a = true → ok s t a →
      step s t a = .ok s' → Reach ok defaultQuantum s'

end Bind9.Taskmgr
