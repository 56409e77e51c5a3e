import Concurrencpp.Interleaving
import Concurrencpp.Timers.TimerQueueInternal

/-!
# The timer queue

One `timer_queue` with any number of calling threads, its worker threads, and the executors of its
timers.  A thread runs a stack of frames: user code, a function of the timer queue, or a posted
timer.  Only the innermost frame takes a step.

* Every `shared_ptr` to a `timer_state` has a name (`Owner`); `owners x` lists those that refer to
  the timer `x`, so that its length is the use count.  Local variables are named by their thread,
  and where a thread may have several of them by the depth of their frame.
* When the last one dies (`drop`), the `timer_state` is destroyed on the spot: a callable of the
  user is destroyed, and an `await_via_functor` that has not been invoked resumes its coroutine.
  Either way user code begins on the thread.
* The functor of a delay object is moved into its `timer_state` when it is made; the suspension has
  the number of the timer.
* A timer that fires is posted: the executor stores the task (`store`), runs it inside `post`
  (`inline`) or throws (`throw`).  An exception that leaves `work_loop` ends the program.
* `make_delay_object` is a call of `make_timer_impl` that does not keep what it returns.
* The thread callbacks of the worker are user code before and behind `work_loop`; starting a thread
  may fail (`fail`).

The queue outlives the run, and memory is never short.
-/

namespace Concurrencpp

inductive TimerThread
  | caller (n : ℕ)
  | worker (n : ℕ)
  deriving DecidableEq, Repr

/-- The `shared_ptr`s to a timer: the variable of `make_timer_impl`, the parameter of `add_timer`,
the member of the `timer`, the variable of `cancel`, an entry of `m_request_queue`; on a worker, an
entry of the requests that it has taken, the parameter of `remove_timer_internal`, the element of
the multiset, the entry of the map, the variable of `process_timers`, the task that it posts; the
`k`th posted task, and a task that a thread runs. -/
inductive Owner
  | timerState (t : TimerThread) (depth : ℕ)
  | newTimer (t : TimerThread) (depth : ℕ)
  | handle
  | state (t : TimerThread) (depth : ℕ)
  | request (r : TimerRequest)
  | taken (t : TimerThread) (r : TimerRequest)
  | existingTimer (t : TimerThread)
  | element (t : TimerThread)
  | mapped (t : TimerThread)
  | current (t : TimerThread)
  | posting (t : TimerThread)
  | task (k : ℕ)
  | running (t : TimerThread) (depth : ℕ)
  deriving DecidableEq, Repr

/-- `std::move(m_request_queue)`: its entries belong to the worker then. -/
def Owner.take (t : TimerThread) : Owner → Owner
  | .request r => .taken t r
  | o => o

/-- Where a thread is in `make_timer_impl` and `add_timer`.  It holds `m_lock` at `addTimer`,
`unwind`, `unlock` and `addInternalTimer`. -/
inductive MakePc
  | lock
  | addTimer
  | unwind
  | unlock
  | destroy
  | addInternalTimer (oldThread : Option ℕ)
  | join (oldThread : Option ℕ)
  | endAddTimer
  | done
  deriving DecidableEq, Repr

/-- Where a thread is in `timer::cancel`.  It holds `m_lock` at `push`. -/
inductive CancelPc
  | flag
  | lock
  | push
  deriving DecidableEq, Repr

/-- Where a thread is in `timer_queue::shutdown`.  It holds `m_lock` at `check` and `clear`. -/
inductive TimerShutdownPc
  | exchange
  | lock
  | check
  | clear
  | join
  deriving DecidableEq, Repr

/-- Where a worker is in `work_loop`.  It holds `m_lock` at `locked`, `timedOut` and `woken`; from
`process` on it is in `process_timers`, with the time `now` of the pass. -/
inductive WorkLoopPc
  | lock
  | locked
  | waiting
  | timedOut
  | woken
  | aborted
  | process (requests : List (ℕ × TimerRequest))
  | erase (x : ℕ) (requests : List (ℕ × TimerRequest))
  | unmap (x : ℕ) (requests : List (ℕ × TimerRequest))
  | removed (x : ℕ) (requests : List (ℕ × TimerRequest))
  | pass (now : ℕ)
  | notExpired (now x : ℕ)
  | extracted (now node x : ℕ)
  | post (now node x k : ℕ)
  | fired (now node x : ℕ) (cancelled : Bool)
  | unmapped (now x : ℕ)
  | dying (now x : ℕ)
  | reinserted (now x : ℕ)
  | finish (now : ℕ)
  deriving DecidableEq, Repr

/-- Where a thread is in a posted task. -/
inductive TimerTaskPc
  | execute
  | destroy
  deriving DecidableEq, Repr

inductive Frame
  | user
  | makeTimer (x : ℕ) (pc : MakePc)
  | cancel (x : ℕ) (pc : CancelPc)
  | shutdown (pc : TimerShutdownPc)
  | workLoop (pc : WorkLoopPc) (q : TimerQueueInternal) (nextDeadline : ℕ)
  | task (x k : ℕ) (pc : TimerTaskPc)
  deriving DecidableEq, Repr

/-- The timer queue, its timers, its threads and the tasks that executors have stored. -/
structure TimerSystem where
  lock : Option TimerThread
  requestQueue : List (ℕ × TimerRequest)
  atomicAbort : Bool
  abort : Bool
  idle : Bool
  worker : Option ℕ
  workers : ℕ
  now : ℕ
  created : ℕ
  timers : ℕ → TimerState
  owners : ℕ → List Owner
  posts : ℕ → ℕ
  stored : List (ℕ × ℕ)
  frames : TimerThread → List Frame
  coroutines : Suspensions
  assertFailed : Bool
  terminated : Bool

/-- A call from user code; `executor` says whether the given executor is not null. -/
inductive TimerCall
  | makeTimer (executor : Bool) (dueTime frequency : ℕ)
  | makeOneShotTimer (executor : Bool) (dueTime : ℕ)
  | makeDelayObject (executor : Bool) (dueTime : ℕ)
  | cancel (x : ℕ)
  | setFrequency (x frequency : ℕ)
  | shutdown
  deriving DecidableEq, Repr

/-- What happens next: a thread begins or leaves user code, calls a function, takes the next step of
its innermost frame; a wait times out; a thread cannot be started; an executor decides what `post`
does, runs or destroys a stored task; time goes on. -/
inductive TimerMove
  | enter (n : ℕ)
  | leave (t : TimerThread)
  | call (t : TimerThread) (c : TimerCall)
  | step (t : TimerThread)
  | timeout (t : TimerThread)
  | fail (t : TimerThread)
  | store (t : TimerThread)
  | inline (t : TimerThread)
  | throw (t : TimerThread)
  | run (t : TimerThread) (x k : ℕ)
  | discard (t : TimerThread) (x k : ℕ)
  | tick
  deriving DecidableEq, Repr

namespace TimerSystem

def initial : TimerSystem where
  lock := none
  requestQueue := []
  atomicAbort := false
  abort := false
  idle := true
  worker := none
  workers := 0
  now := 0
  created := 0
  timers := fun _ => .make 0 0 0 false .bound
  owners := fun _ => []
  posts := fun _ => 0
  stored := []
  frames := fun _ => []
  coroutines := .initial
  assertFailed := false
  terminated := false

/-! ### Frames and references -/

def setFrames (s : TimerSystem) (t : TimerThread) (fs : List Frame) : TimerSystem :=
  { s with frames := Function.update s.frames t fs }

def setTimer (s : TimerSystem) (x : ℕ) (timer : TimerState) : TimerSystem :=
  { s with timers := Function.update s.timers x timer }

def setOwners (s : TimerSystem) (x : ℕ) (os : List Owner) : TimerSystem :=
  { s with owners := Function.update s.owners x os }

/-- A `shared_ptr` is copied. -/
def copy (s : TimerSystem) (x : ℕ) (o : Owner) : TimerSystem := s.setOwners x (o :: s.owners x)

/-- A `shared_ptr` is moved. -/
def move (s : TimerSystem) (x : ℕ) (o o' : Owner) : TimerSystem :=
  s.setOwners x (o' :: (s.owners x).erase o)

/-- The destructor of `timer_state`. -/
def destroyTimer (s : TimerSystem) (x : ℕ) : TimerSystem :=
  match (s.timers x).callable with
  | .bound => s
  | .functor f =>
      { s.setTimer x { s.timers x with callable := .functor f.disarm } with
        coroutines := f.destroy s.coroutines }

/-- A `shared_ptr` dies, and the thread goes on with `fs`.  The last one destroys the
`timer_state`. -/
def drop (s : TimerSystem) (t : TimerThread) (x : ℕ) (o : Owner) (fs : List Frame) : TimerSystem :=
  let os := (s.owners x).erase o
  if os = [] then ((s.setOwners x os).destroyTimer x).setFrames t (.user :: fs)
  else (s.setOwners x os).setFrames t fs

/-- `std::unique_lock<std::mutex> lock(m_lock)`. -/
def acquire (s : TimerSystem) (t : TimerThread) (fs : List Frame) : Option TimerSystem :=
  match s.lock with
  | none => some { s.setFrames t fs with lock := some t }
  | some _ => none

/-- `lock.unlock()`. -/
def release (s : TimerSystem) (t : TimerThread) (fs : List Frame) : TimerSystem :=
  { s.setFrames t fs with lock := none }

/-- `m_request_queue.emplace_back`. -/
def pushRequest (s : TimerSystem) (x : ℕ) (r : TimerRequest) : TimerSystem :=
  { s with requestQueue := s.requestQueue ++ [(x, r)] }

/-- The deadlines by which `m_timers` is ordered. -/
def deadlines (s : TimerSystem) (x : ℕ) : ℕ := (s.timers x).deadline

/-! ### `make_timer_impl` -/

/-- `ensure_worker_thread`, when a thread can be started: the state behind it and `old_worker`. -/
def ensureWorkerThread (s : TimerSystem) : TimerSystem × Option ℕ :=
  if s.idle then
    ({ s.setFrames (.worker s.workers) [.user, .workLoop .lock .init 0] with
        worker := some s.workers
        workers := s.workers + 1
        idle := false }, s.worker)
  else (s, none)

def makeTimerStep (s : TimerSystem) (t : TimerThread) (x : ℕ) (rest : List Frame) :
    MakePc → Option TimerSystem
  | .lock => (s.copy x (.newTimer t rest.length)).acquire t (.makeTimer x .addTimer :: rest)
  | .addTimer =>
      if s.abort then some (s.setFrames t (.makeTimer x .unwind :: rest))
      else
        let p := s.ensureWorkerThread
        some (p.1.setFrames t (.makeTimer x (.addInternalTimer p.2) :: rest))
  | .unwind => some (s.drop t x (.newTimer t rest.length) (.makeTimer x .unlock :: rest))
  | .unlock => some (s.release t (.makeTimer x .destroy :: rest))
  | .destroy => some (s.drop t x (.timerState t rest.length) rest)
  | .addInternalTimer old =>
      some (((s.copy x (.request .add)).pushRequest x .add).release t
        (.makeTimer x (.join old) :: rest))
  | .join none => some (s.setFrames t (.makeTimer x .endAddTimer :: rest))
  | .join (some w) =>
      if s.frames (.worker w) = [] then some (s.setFrames t (.makeTimer x .endAddTimer :: rest))
      else none
  | .endAddTimer => some (s.drop t x (.newTimer t rest.length) (.makeTimer x .done :: rest))
  | .done =>
      match (s.timers x).callable with
      | .bound => some ((s.move x (.timerState t rest.length) .handle).setFrames t rest)
      | .functor _ => some (s.drop t x (.timerState t rest.length) rest)

/-- The thread cannot be started: the exception leaves `ensure_worker_thread`, whose `old_worker`
ends the program when it is joinable. -/
def failToStart (s : TimerSystem) (t : TimerThread) (x : ℕ) (rest : List Frame) :
    Option TimerSystem :=
  if s.abort ∨ s.idle = false then none
  else match s.worker with
    | some _ => some { s with terminated := true }
    | none => some (s.setFrames t (.makeTimer x .unwind :: rest))

/-- `std::make_shared` in `make_timer_impl`. -/
def makeTimerImpl (s : TimerSystem) (t : TimerThread) (dueTime frequency : ℕ) (isOneshot : Bool)
    (callable : TimerCallable) : TimerSystem :=
  let x := s.created
  { ((s.setTimer x (.make s.now dueTime frequency isOneshot callable)).copy x
      (.timerState t (s.frames t).length)).setFrames t (.makeTimer x .lock :: s.frames t) with
    created := x + 1 }

/-! ### `timer` -/

/-- `cancel`, behind the move of `m_state`. -/
def cancelStep (s : TimerSystem) (t : TimerThread) (x : ℕ) (rest : List Frame) :
    CancelPc → Option TimerSystem
  | .flag => some ((s.setTimer x (s.timers x).cancel).setFrames t (.cancel x .lock :: rest))
  | .lock => s.acquire t (.cancel x .push :: rest)
  | .push =>
      some (((s.move x (.state t rest.length) (.request .remove)).pushRequest x .remove).release t
        rest)

def call (s : TimerSystem) (t : TimerThread) : TimerCall → Option TimerSystem
  | .makeTimer executor dueTime frequency =>
      some (if executor then s.makeTimerImpl t dueTime frequency false .bound else s)
  | .makeOneShotTimer executor dueTime =>
      some (if executor then s.makeTimerImpl t dueTime 0 true .bound else s)
  | .makeDelayObject executor dueTime =>
      some (if executor then s.makeTimerImpl t dueTime 0 true (.functor (.make s.created)) else s)
  | .cancel x =>
      if .handle ∈ s.owners x then
        some ((s.move x .handle (.state t (s.frames t).length)).setFrames t
          (.cancel x .flag :: s.frames t))
      else none
  | .setFrequency x frequency =>
      if .handle ∈ s.owners x then some (s.setTimer x ((s.timers x).setNewFrequency frequency))
      else none
  | .shutdown => some (s.setFrames t (.shutdown .exchange :: s.frames t))

/-! ### `shutdown` -/

def shutdownStep (s : TimerSystem) (t : TimerThread) (rest : List Frame) :
    TimerShutdownPc → Option TimerSystem
  | .exchange =>
      if s.atomicAbort then some (s.setFrames t rest)
      else some { s.setFrames t (.shutdown .lock :: rest) with atomicAbort := true }
  | .lock => s.acquire t (.shutdown .check :: rest)
  | .check =>
      match s.worker with
      | none => some ({ s with abort := true }.release t rest)
      | some _ => some { s.setFrames t (.shutdown .clear :: rest) with abort := true }
  | .clear =>
      -- `m_request_queue.clear()` destroys one entry after the other
      match s.requestQueue with
      | [] => some (s.release t (.shutdown .join :: rest))
      | (x, r) :: requests =>
          some ({ s with requestQueue := requests }.drop t x (.request r)
            (.shutdown .clear :: rest))
  | .join =>
      match s.worker with
      | none => some (s.setFrames t rest)
      | some w =>
          -- a worker that joins itself throws `std::system_error`, and `m_worker` stays joinable
          if t = .worker w then some (s.setFrames t rest)
          else if s.frames (.worker w) = [] then some { s.setFrames t rest with worker := none }
          else none

/-! ### `work_loop` -/

/-- The predicate of both waits. -/
def hasEvent (s : TimerSystem) : Bool := !s.requestQueue.isEmpty || s.abort

/-- `auto request_queue = std::move(m_request_queue)`. -/
def takeRequests (s : TimerSystem) (t : TimerThread) : TimerSystem :=
  { s with requestQueue := [], owners := fun x => (s.owners x).map (Owner.take t) }

/-- The worker goes on at `pc`, with the containers `q`. -/
def workLoopFrame (q : TimerQueueInternal) (deadline : ℕ) (rest : List Frame) (pc : WorkLoopPc) :
    List Frame := .workLoop pc q deadline :: rest

/-- `process_timers`, without `post`. -/
def processTimersStep (s : TimerSystem) (t : TimerThread) (q : TimerQueueInternal) (deadline : ℕ)
    (rest : List Frame) : WorkLoopPc → Option TimerSystem
  | .process [] => some (s.setFrames t (workLoopFrame q deadline rest (.pass s.now)))
  | .process ((x, .add) :: requests) =>
      some (((s.move x (.taken t .add) (.mapped t)).copy x (.element t)).setFrames t
        (workLoopFrame (q.addTimerInternal s.deadlines x) deadline rest (.process requests)))
  | .process ((x, .remove) :: requests) =>
      some ((s.move x (.taken t .remove) (.existingTimer t)).setFrames t
        (workLoopFrame q deadline rest
          (if (q.find x).isSome then .erase x requests else .removed x requests)))
  | .erase x requests =>
      some (s.drop t x (.element t)
        (workLoopFrame ((q.find x).elim q q.eraseNode) deadline rest (.unmap x requests)))
  | .unmap x requests =>
      some (s.drop t x (.mapped t) (workLoopFrame (q.unmap x) deadline rest (.removed x requests)))
  | .removed x requests =>
      some (s.drop t x (.existingTimer t) (workLoopFrame q deadline rest (.process requests)))
  | .pass now =>
      match q.timers with
      | [] => some (s.setFrames t (workLoopFrame q deadline rest (.finish now)))
      | (node, x) :: _ =>
          if (s.timers x).expired now then
            some ((s.copy x (.current t)).setFrames t
              (workLoopFrame q.extract deadline rest (.extracted now node x)))
          else some ((s.copy x (.current t)).setFrames t
            (workLoopFrame q deadline rest (.notExpired now x)))
  | .notExpired now x =>
      some (s.drop t x (.current t) (workLoopFrame q deadline rest (.finish now)))
  | .extracted now node x =>
      if (s.timers x).cancelled then
        some (s.setFrames t (workLoopFrame q deadline rest (.fired now node x true)))
      else
        -- `fire`: the next deadline, and the task with its own reference
        some { ((s.setTimer x ((s.timers x).rearm s.now)).copy x (.posting t)).setFrames t
            (workLoopFrame q deadline rest (.post now node x (s.posts x))) with
          posts := Function.update s.posts x (s.posts x + 1) }
  | .fired now node x cancelled =>
      if (s.timers x).isOneshot || cancelled then
        some (s.drop t x (.mapped t) (workLoopFrame (q.unmap x) deadline rest (.unmapped now x)))
      else
        some (s.setFrames t
          (workLoopFrame (q.reinsert s.deadlines node x) deadline rest (.reinserted now x)))
  | .unmapped now x => some (s.drop t x (.current t) (workLoopFrame q deadline rest (.dying now x)))
  | .dying now x => some (s.drop t x (.element t) (workLoopFrame q deadline rest (.pass now)))
  | .reinserted now x => some (s.drop t x (.current t) (workLoopFrame q deadline rest (.pass now)))
  | .finish now =>
      some (s.setFrames t (workLoopFrame q (q.nextDeadline s.deadlines now) rest .lock))
  | _ => none

def workLoopStep (s : TimerSystem) (t : TimerThread) (q : TimerQueueInternal) (deadline : ℕ)
    (rest : List Frame) : WorkLoopPc → Option TimerSystem
  | .lock => s.acquire t (workLoopFrame q deadline rest .locked)
  | .locked =>
      if s.hasEvent then some (s.setFrames t (workLoopFrame q deadline rest .woken))
      else some (s.release t (workLoopFrame q deadline rest .waiting))
  | .waiting => s.acquire t (workLoopFrame q deadline rest .locked)
  | .timedOut =>
      if s.hasEvent || !q.empty then some (s.setFrames t (workLoopFrame q deadline rest .woken))
      else some ({ s with idle := true }.release t (.user :: rest))
  | .woken =>
      if s.abort then some (s.release t (workLoopFrame q deadline rest .aborted))
      else some ((s.takeRequests t).release t
        (workLoopFrame q deadline rest (.process s.requestQueue)))
  | .aborted =>
      -- `internal_state` dies: the map, then the multiset
      match q.iteratorMapper, q.timers with
      | e :: m, _ =>
          some (s.drop t e.1 (.mapped t)
            (workLoopFrame { q with iteratorMapper := m } deadline rest .aborted))
      | [], e :: ts =>
          some (s.drop t e.2 (.element t)
            (workLoopFrame { q with timers := ts } deadline rest .aborted))
      | [], [] => some (s.setFrames t (.user :: rest))
  | pc => s.processTimersStep t q deadline rest pc

/-- A wait times out; with timers, not before the next deadline. -/
def timeout (s : TimerSystem) (t : TimerThread) : Option TimerSystem :=
  match s.frames t with
  | .workLoop .waiting q deadline :: rest =>
      if q.empty || deadline ≤ s.now then s.acquire t (workLoopFrame q deadline rest .timedOut)
      else none
  | _ => none

/-! ### Executors -/

/-- `timer_state::execute`, when the timer is not cancelled. -/
def invokeCallable (s : TimerSystem) (x : ℕ) : TimerSystem :=
  match (s.timers x).callable with
  | .bound => s
  | .functor f =>
      match f.call s.coroutines with
      | some p =>
          { s.setTimer x { s.timers x with callable := .functor p.1 } with coroutines := p.2 }
      | none => { s with assertFailed := true }

/-- The next step of a posted task: `execute`, and the death of the task. -/
def taskStep (s : TimerSystem) (t : TimerThread) (x k : ℕ) (rest : List Frame) :
    TimerTaskPc → Option TimerSystem
  | .execute =>
      if (s.timers x).cancelled then some (s.setFrames t (.task x k .destroy :: rest))
      else some ((s.invokeCallable x).setFrames t (.user :: .task x k .destroy :: rest))
  | .destroy => some (s.drop t x (.running t rest.length) rest)

/-- The executor takes the task in `post`. -/
def post (s : TimerSystem) (t : TimerThread) (f : List Frame → ℕ → ℕ → TimerSystem) :
    Option TimerSystem :=
  match s.frames t with
  | .workLoop (.post now node x k) q deadline :: rest =>
      some (f (workLoopFrame q deadline rest (.fired now node x false)) x k)
  | _ => none

/-- The thread runs user code, or it is a thread of an executor that runs nothing. -/
def hosts (s : TimerSystem) (t : TimerThread) : Bool :=
  match t, s.frames t with
  | .caller _, [] => true
  | _, .user :: _ => true
  | _, _ => false

/-- A stored task is taken to be run or to be destroyed. -/
def takeTask (s : TimerSystem) (t : TimerThread) (x k : ℕ) (pc : TimerTaskPc) :
    Option TimerSystem :=
  if s.hosts t ∧ (x, k) ∈ s.stored then
    some ({ s.move x (.task k) (.running t (s.frames t).length) with
        stored := s.stored.erase (x, k) }.setFrames t (.task x k pc :: s.frames t))
  else none

/-! ### Steps -/

def nextStep (s : TimerSystem) (t : TimerThread) (rest : List Frame) : Frame → Option TimerSystem
  | .user => none
  | .makeTimer x pc => s.makeTimerStep t x rest pc
  | .cancel x pc => s.cancelStep t x rest pc
  | .shutdown pc => s.shutdownStep t rest pc
  | .workLoop pc q deadline => s.workLoopStep t q deadline rest pc
  | .task x k pc => s.taskStep t x k rest pc

def liveStep (s : TimerSystem) : TimerMove → Option TimerSystem
  | .enter n => if s.frames (.caller n) = [] then some (s.setFrames (.caller n) [.user]) else none
  | .leave t =>
      match s.frames t with
      | .user :: rest => some (s.setFrames t rest)
      | _ => none
  | .call t c =>
      match s.frames t with
      | .user :: _ => s.call t c
      | _ => none
  | .step t =>
      match s.frames t with
      | [] => none
      | f :: rest => s.nextStep t rest f
  | .timeout t => s.timeout t
  | .fail t =>
      match s.frames t with
      | .makeTimer x .addTimer :: rest => s.failToStart t x rest
      | _ => none
  | .store t => s.post t fun fs x k =>
      { (s.move x (.posting t) (.task k)).setFrames t fs with stored := (x, k) :: s.stored }
  | .inline t => s.post t fun fs x k =>
      (s.move x (.posting t) (.running t fs.length)).setFrames t (.task x k .execute :: fs)
  | .throw t => s.post t fun _ _ _ => { s with terminated := true }
  | .run t x k => s.takeTask t x k .execute
  | .discard t x k => s.takeTask t x k .destroy
  | .tick => some { s with now := s.now + 1 }

def step (s : TimerSystem) (m : TimerMove) : Option TimerSystem :=
  if s.terminated then none else s.liveStep m

def IsInitial (s : TimerSystem) : Prop := s = initial

def Reachable (s : TimerSystem) : Prop := Interleaving.Reachable step IsInitial s

end TimerSystem
end Concurrencpp
