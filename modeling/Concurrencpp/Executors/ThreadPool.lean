import Concurrencpp.Executors.IdleWorkerSet
import Concurrencpp.Executors.Worker

/-!
# Thread pools

`thread_pool_executor`: any number of pools, of any sizes, with the threads of their workers and any
number of other threads that call them.

* `ThreadPool`: one pool.  `ThreadPool.workerStep` is the next step of the thread of one of its
  workers with everything that the thread does to its own pool: `mark_worker_idle`,
  `mark_worker_active` and `balance_work`, which donates tasks to idle workers.
* `Cut`: the variables of the two loops that cut a sequence of tasks into ranges.
* `ThreadPools`: all pools.  A `Call` is what a thread has left to do of `enqueue` or `shutdown`,
  and `ThreadPools.callStep` its next step.  A thread finds its worker in a thread-local variable
  (`Thread.thisWorker`), which is the same for all pools.

A task carries the pool that it was given to: `τ` is `P × _` in the workers of `ThreadPools P _`.
The record plays no part in the steps.
-/

namespace Concurrencpp

open Function (update)

/-! ### Ranges -/

/-- `begin`, `end`, `extra` and `donation_count`. -/
structure Cut where
  start : ℕ
  stop : ℕ
  extra : ℕ
  donationCount : ℕ
  deriving DecidableEq, Repr

namespace Cut

/-- The variables before the loop. -/
def init (taskCount workerCount : ℕ) : Cut where
  start := 0
  stop := taskCount / workerCount
  extra := taskCount - taskCount / workerCount * workerCount
  donationCount := taskCount / workerCount

/-- The first of the ranges are longer by one. -/
def grow (c : Cut) : Cut :=
  if c.extra ≠ 0 then { c with stop := c.stop + 1, extra := c.extra - 1 } else c

def next (c : Cut) : Cut := { c with start := c.stop, stop := c.stop + c.donationCount }

/-- The tasks between `begin` and `end`. -/
def range {α : Type} (c : Cut) (tasks : List α) : List α :=
  (tasks.drop c.start).take (c.stop - c.start)

end Cut

/-! ### One pool -/

/-- Where the thread of a worker is inside `set_idle`, `set_active` and `balance_work`: behind the
exchange on its flag, in its search for idle workers, about to donate to the next of them, or behind
the critical section of `enqueue_foreign` on one of them. -/
inductive InnerPc
  | outside
  | add
  | subtract
  | search (q : Search)
  | donate (targets : List ℕ) (cut : Cut)
  | donated (target : ℕ) (pc : EnqueuerPc) (targets : List ℕ) (cut : Cut)

/-- `thread_pool_executor`.  `idleWorkerLists` has the `m_idle_worker_list` of each worker, `inner`
where its thread is. -/
structure ThreadPool (τ : Type) where
  workers : ℕ → Worker τ
  idleWorkerLists : ℕ → List ℕ
  inner : ℕ → InnerPc
  roundRobinCursor : ℕ
  idleWorkers : IdleWorkerSet
  abort : Bool

namespace ThreadPool

variable {τ : Type}

/-- A new pool. -/
def initial (size : ℕ) : ThreadPool τ where
  workers := fun _ => .initial
  idleWorkerLists := fun _ => []
  inner := fun _ => .outside
  roundRobinCursor := 0
  idleWorkers := .initial size
  abort := false

/-- `m_workers.size()`; the set of idle workers has the same size. -/
def size (pool : ThreadPool τ) : ℕ := pool.idleWorkers.size

def setWorker (pool : ThreadPool τ) (i : ℕ) (w : Worker τ) : ThreadPool τ :=
  { pool with workers := update pool.workers i w }

def setInner (pool : ThreadPool τ) (i : ℕ) (pc : InnerPc) : ThreadPool τ :=
  { pool with inner := update pool.inner i pc }

def setIdleWorkerList (pool : ThreadPool τ) (i : ℕ) (list : List ℕ) : ThreadPool τ :=
  { pool with idleWorkerLists := update pool.idleWorkerLists i list }

/-- A step of the worker's thread that is not a step of the pool's functions, or the last step of
one. -/
def next (pool : ThreadPool τ) (i : ℕ) : Option (ThreadPool τ) :=
  (pool.workers i).nextStep.map fun w => (pool.setWorker i w).setInner i .outside

/-- The beginning of `balance_work`. -/
def balanceWork (pool : ThreadPool τ) (i : ℕ) : Option (ThreadPool τ) :=
  let taskCount := (pool.workers i).privateQueue.length
  let maxIdleWorkerCount := min (pool.size - 1) (taskCount - 1)
  if taskCount < 2 ∨ maxIdleWorkerCount = 0 then pool.next i
  else some (pool.setInner i (.search (IdleWorkerSet.findIdleWorkers i maxIdleWorkerCount)))

/-- The thread is outside the functions of the pool and may enter one. -/
def enter (pool : ThreadPool τ) (i : ℕ) : Option (ThreadPool τ) :=
  let set := pool.idleWorkers
  match (pool.workers i).pc with
  -- `mark_worker_idle`
  | .markIdle =>
      let pool := { pool with idleWorkers := set.exchange i true }
      if set.idleFlags i then pool.next i else some (pool.setInner i .add)
  -- `mark_worker_active`
  | .markActive =>
      let pool := { pool with idleWorkers := set.exchange i false }
      if set.idleFlags i then some (pool.setInner i .subtract) else pool.next i
  | .balance _ => pool.balanceWork i
  | _ => pool.next i

/-- The search of `balance_work`.  What it finds is appended to a list that is empty, unless an
exception has left an earlier `balance_work` of this worker. -/
def searchStep (pool : ThreadPool τ) (i : ℕ) (q : Search) : Option (ThreadPool τ) :=
  if q.pc = .done then
    let taskCount := (pool.workers i).privateQueue.length
    let list := pool.idleWorkerLists i ++ q.found
    let pool := pool.setIdleWorkerList i list
    if list = [] then pool.next i
    else
      let w := (pool.workers i).check (decide (list.length ≤ taskCount))
      some ((pool.setWorker i w).setInner i (.donate list (.init taskCount (list.length + 1))))
  else
    let r := pool.idleWorkers.searchStep q
    some ({ pool with idleWorkers := r.1 }.setInner i (.search r.2))

/-- One iteration of the loop of `balance_work`, up to the end of the critical section of
`enqueue_foreign`. -/
def donateStep (pool : ThreadPool τ) (i target : ℕ) (targets : List ℕ) (cut : Cut) :
    Option (ThreadPool τ) :=
  let queue := (pool.workers i).privateQueue
  let c := cut.grow
  let asserts := decide (target ≠ i ∧ target < pool.size ∧ cut.start < queue.length ∧
    c.stop ≤ queue.length)
  if (pool.workers target).lockFree then
    match (pool.workers target).enqueueForeign (c.range queue) with
    -- `errors::runtime_shutdown` leaves `balance_work`, and `m_idle_worker_list` is not cleared
    | none => ((pool.workers i).check asserts).throw.map fun w =>
        (pool.setWorker i w).setInner i .outside
    | some (v, pc) =>
        let pool := pool.setWorker target v
        (((pool.workers i).check asserts).give (c.stop - c.start)).map fun w =>
          (pool.setWorker i w).setInner i
            (if pc = .outside then .donate targets c.next else .donated target pc targets c.next)
  else none

/-- The end of `balance_work`, up to the erasure of what has been donated. -/
def donationsDone (pool : ThreadPool τ) (i : ℕ) (cut : Cut) : Option (ThreadPool τ) :=
  let w := pool.workers i
  let asserts := (w.privateQueue.take cut.start).all Option.isNone &&
    (w.privateQueue.drop cut.start).all Option.isSome &&
    !(w.privateQueue.drop cut.start).isEmpty
  ((pool.setWorker i (w.check asserts)).setIdleWorkerList i []).next i

/-- The next step of the thread of a worker. -/
def workerStep (pool : ThreadPool τ) (i : ℕ) : Option (ThreadPool τ) :=
  match pool.inner i with
  | .outside => pool.enter i
  | .add => next { pool with idleWorkers := pool.idleWorkers.add 1 } i
  | .subtract => next { pool with idleWorkers := pool.idleWorkers.add (-1) } i
  | .search q => pool.searchStep i q
  | .donate [] cut => pool.donationsDone i cut
  | .donate (target :: targets) cut => pool.donateStep i target targets cut
  | .donated target pc targets cut =>
      ((pool.workers target).enqueuerStep pc).map fun r =>
        (pool.setWorker target r.1).setInner i (.donate targets cut)

/-- The wait of a worker's thread times out. -/
def timeout (pool : ThreadPool τ) (i : ℕ) : Option (ThreadPool τ) :=
  ((pool.workers i).threadStep .timeout).map (pool.setWorker i)

/-- An `errors::runtime_shutdown` leaves the task that a worker's thread runs. -/
def throw (pool : ThreadPool τ) (i : ℕ) : Option (ThreadPool τ) :=
  if (pool.workers i).pc = .running then
    ((pool.workers i).threadStep .throw).map (pool.setWorker i)
  else none

end ThreadPool

/-! ### All pools and their callers -/

/-- The thread of a worker, or any other thread, with its `this_thread_hashed_id`. -/
inductive Thread (P : Type)
  | worker (pool : P) (index : ℕ)
  | foreign (k hashedId : ℕ)
  deriving DecidableEq

namespace Thread

variable {P : Type}

/-- `s_tl_thread_pool_data.this_worker`, as `work_loop` sets it. -/
def thisWorker : Thread P → Option (P × ℕ)
  | .worker pool index => some (pool, index)
  | .foreign _ _ => none

/-- `this_thread_index`; `none` is `static_cast<size_t>(-1)`. -/
def index : Thread P → Option ℕ
  | .worker _ index => some index
  | .foreign _ _ => none

/-- `this_thread_hashed_id`; it is read only by a thread without an index. -/
def hashedId : Thread P → ℕ
  | .worker _ _ => 0
  | .foreign _ hashedId => hashedId

end Thread

/-- What is left of `enqueue` once the tasks at hand have been placed: the tasks of a short span,
one by one, or the ranges of a long one, for the workers from `i` on. -/
inductive Rest (τ : Type)
  | each (tasks : List (Option τ))
  | ranges (i : ℕ) (cut : Cut) (tasks : List (Option τ))

/-- What a thread has left to do of a call on the pool `p`. -/
inductive Call (P τ : Type)
  | outside
  | find (p : P) (task : Option τ) (rest : List (Option τ)) (q : Search)
  | nextWorker (p : P) (task : Option τ) (rest : List (Option τ))
  | enqueueLocal (p : P) (tasks : List (Option τ))
  | enqueueForeign (p : P) (index : ℕ) (tasks : List (Option τ)) (rest : Rest τ)
  | enqueued (p : P) (index : ℕ) (pc : EnqueuerPc) (rest : Rest τ)
  | shutdown (p : P) (i : ℕ) (pc : ShutdownPc)

/-- All pools, and the calls that are being made. -/
structure ThreadPools (P τ : Type) where
  pools : P → ThreadPool (P × τ)
  calls : Thread P → Call P τ

/-- The next step of a worker's thread, the timeout of its wait, an exception out of the task that
it runs; the beginning of a call by a thread, its next step, and the `std::system_error` of
`join`. -/
inductive PoolMove (P τ : Type)
  | worker (p : P) (i : ℕ)
  | timeout (p : P) (i : ℕ)
  | throw (p : P) (i : ℕ)
  | enqueue (t : Thread P) (p : P) (task : Option τ)
  | enqueueSpan (t : Thread P) (p : P) (tasks : List (Option τ))
  | shutdown (t : Thread P) (p : P)
  | call (t : Thread P)
  | joinThrows (t : Thread P)

namespace ThreadPools

variable {P τ : Type} [DecidableEq P]

/-- New pools of the given sizes. -/
def initial (size : P → ℕ) : ThreadPools P τ where
  pools := fun p => .initial (size p)
  calls := fun _ => .outside

def setPool (s : ThreadPools P τ) (p : P) (pool : ThreadPool (P × τ)) : ThreadPools P τ :=
  { s with pools := update s.pools p pool }

def setCall (s : ThreadPools P τ) (t : Thread P) (c : Call P τ) : ThreadPools P τ :=
  { s with calls := update s.calls t c }

def worker (s : ThreadPools P τ) (p : P) (i : ℕ) : Worker (P × τ) := (s.pools p).workers i

def setWorker (s : ThreadPools P τ) (p : P) (i : ℕ) (w : Worker (P × τ)) : ThreadPools P τ :=
  s.setPool p ((s.pools p).setWorker i w)

/-- The tasks, with the record that they were given to `p`. -/
def given (p : P) (tasks : List (Option τ)) : List (Option (P × τ)) :=
  tasks.map (Option.map (Prod.mk p))

/-- `find_idle_worker` on the pool `p`. -/
def findIdleWorker (s : ThreadPools P τ) (t : Thread P) (p : P) : Search :=
  (s.pools p).idleWorkers.findIdleWorker t.index t.hashedId

/-- `enqueue(task)`, up to the call of `find_idle_worker`. -/
def enqueue (s : ThreadPools P τ) (t : Thread P) (p : P) (task : Option τ) : Call P τ :=
  match t.thisWorker with
  | some (q, j) =>
      if (s.worker q j).appearsEmpty then .enqueueLocal p [task]
      else .find p task [] (s.findIdleWorker t p)
  | none => .find p task [] (s.findIdleWorker t p)

/-- The tasks of a short span are enqueued one by one, by a thread that has no worker. -/
def enqueueEach (s : ThreadPools P τ) (t : Thread P) (p : P) : List (Option τ) → Call P τ
  | [] => .outside
  | task :: rest => .find p task rest (s.findIdleWorker t p)

/-- The loop over the workers in `enqueue(span)`. -/
def enqueueRanges (s : ThreadPools P τ) (p : P) (i : ℕ) (cut : Cut) (tasks : List (Option τ)) :
    Call P τ :=
  if i < (s.pools p).size then
    .enqueueForeign p i (cut.grow.range tasks) (.ranges (i + 1) cut.grow.next tasks)
  else .outside

/-- `enqueue(span)`; `none` is the division by zero in a pool without workers. -/
def enqueueSpan (s : ThreadPools P τ) (t : Thread P) (p : P) (tasks : List (Option τ)) :
    Option (Call P τ) :=
  match t.thisWorker with
  | some _ => some (.enqueueLocal p tasks)
  | none =>
      if tasks.length < (s.pools p).size then some (s.enqueueEach t p tasks)
      else if (s.pools p).size = 0 then none
      else some (s.enqueueRanges p 0 (.init tasks.length (s.pools p).size) tasks)

/-- The call goes on with what is left of it. -/
def resume (s : ThreadPools P τ) (t : Thread P) (p : P) : Rest τ → Call P τ
  | .each tasks => s.enqueueEach t p tasks
  | .ranges i cut tasks => s.enqueueRanges p i cut tasks

/-- `find_idle_worker` has returned. -/
def searched (t : Thread P) (p : P) (task : Option τ) (rest : List (Option τ)) :
    List ℕ → Call P τ
  | index :: _ => .enqueueForeign p index [task] (.each rest)
  | [] =>
      match t.thisWorker with
      | some _ => .enqueueLocal p [task]
      | none => .nextWorker p task rest

/-- The step of a thread inside `find_idle_worker`. -/
def findStep (s : ThreadPools P τ) (t : Thread P) (p : P) (task : Option τ) (rest : List (Option τ))
    (q : Search) : ThreadPools P τ :=
  if q.pc = .done then s.setCall t (searched t p task rest q.found)
  else
    let r := (s.pools p).idleWorkers.searchStep q
    (s.setPool p { s.pools p with idleWorkers := r.1 }).setCall t (.find p task rest r.2)

/-- `m_round_robin_cursor.fetch_add(1) % m_workers.size()`; `none` is the remainder by zero. -/
def nextWorkerStep (s : ThreadPools P τ) (t : Thread P) (p : P) (task : Option τ)
    (rest : List (Option τ)) : Option (ThreadPools P τ) :=
  let pool := s.pools p
  if pool.size = 0 then none
  else some ((s.setPool p
    { pool with roundRobinCursor := (pool.roundRobinCursor + 1) % 2 ^ 64 }).setCall t
      (.enqueueForeign p (pool.roundRobinCursor % pool.size) [task] (.each rest)))

/-- `enqueue_local` on the worker of the thread; an exception ends the call. -/
def enqueueLocalStep (s : ThreadPools P τ) (t : Thread P) (p : P) (tasks : List (Option τ)) :
    Option (ThreadPools P τ) :=
  t.thisWorker.map fun this =>
    match (s.worker this.1 this.2).enqueueLocal (given p tasks) with
    | some w => (s.setWorker this.1 this.2 w).setCall t .outside
    | none => s.setCall t .outside

/-- The critical section of `enqueue_foreign`; an exception ends the call. -/
def enqueueForeignStep (s : ThreadPools P τ) (t : Thread P) (p : P) (index : ℕ)
    (tasks : List (Option τ)) (rest : Rest τ) : Option (ThreadPools P τ) :=
  if (s.worker p index).lockFree then
    match (s.worker p index).enqueueForeign (given p tasks) with
    | some (w, pc) => some ((s.setWorker p index w).setCall t
        (if pc = .outside then s.resume t p rest else .enqueued p index pc rest))
    | none => some (s.setCall t .outside)
  else none

/-- The loop of `shutdown` over the workers. -/
def shutdownStep (s : ThreadPools P τ) (t : Thread P) (p : P) (i : ℕ) (pc : ShutdownPc) :
    Option (ThreadPools P τ) :=
  if i < (s.pools p).size then
    ((s.worker p i).shutdownStep pc).map fun r => (s.setWorker p i r.1).setCall t
      (if r.2 = .done then .shutdown p (i + 1) .before else .shutdown p i r.2)
  else some (s.setCall t .outside)

/-- The next step of the call that a thread is in. -/
def callStep (s : ThreadPools P τ) (t : Thread P) : Option (ThreadPools P τ) :=
  match s.calls t with
  | .outside => none
  | .find p task rest q => some (s.findStep t p task rest q)
  | .nextWorker p task rest => s.nextWorkerStep t p task rest
  | .enqueueLocal p tasks => s.enqueueLocalStep t p tasks
  | .enqueueForeign p index tasks rest => s.enqueueForeignStep t p index tasks rest
  | .enqueued p index pc rest => ((s.worker p index).enqueuerStep pc).map fun r =>
      (s.setWorker p index r.1).setCall t (s.resume t p rest)
  | .shutdown p i pc => s.shutdownStep t p i pc

/-- `m_thread.join()` throws, and the exception ends `shutdown`.  This is what happens to a thread
that joins itself: the thread of a worker whose task calls `shutdown`.  Here it may happen to any
thread. -/
def joinThrows (s : ThreadPools P τ) (t : Thread P) : Option (ThreadPools P τ) :=
  match s.calls t with
  | .shutdown _ _ .join => some (s.setCall t .outside)
  | _ => none

/-- A worker's thread makes calls from the task that it runs, any other thread at any time; nobody
makes two calls at once.  A thread that has left `work_loop` is one of the others; what it does
otherwise, since `this_worker` is still set, is in `PoolCallbacks`. -/
def mayCall (s : ThreadPools P τ) (t : Thread P) : Bool :=
  match s.calls t, t with
  | .outside, .worker p i => (s.worker p i).pc = .running
  | .outside, .foreign _ _ => true
  | _, _ => false

/-- The thread of a worker is not inside a call that its task makes. -/
def noCall (s : ThreadPools P τ) (p : P) (i : ℕ) : Bool :=
  match s.calls (.worker p i) with
  | .outside => true
  | _ => false

/-- One step. -/
def step (s : ThreadPools P τ) : PoolMove P τ → Option (ThreadPools P τ)
  | .worker p i => if s.noCall p i then ((s.pools p).workerStep i).map (s.setPool p) else none
  | .timeout p i => ((s.pools p).timeout i).map (s.setPool p)
  | .throw p i => if s.noCall p i then ((s.pools p).throw i).map (s.setPool p) else none
  | .enqueue t p task => if s.mayCall t then some (s.setCall t (s.enqueue t p task)) else none
  | .enqueueSpan t p tasks =>
      if s.mayCall t then (s.enqueueSpan t p tasks).map (s.setCall t) else none
  | .shutdown t p =>
      if s.mayCall t then
        let pool := s.pools p
        some ((s.setPool p { pool with abort := true }).setCall t
          (if pool.abort then .outside else .shutdown p 0 .before))
      else none
  | .call t => s.callStep t
  | .joinThrows t => s.joinThrows t

/-- New pools, of whatever sizes. -/
def IsInitial (s : ThreadPools P τ) : Prop := ∃ size, s = initial size

/-- The states that some interleaving reaches. -/
def Reachable : ThreadPools P τ → Prop := Interleaving.Reachable step IsInitial

end ThreadPools
end Concurrencpp
