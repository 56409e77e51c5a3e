import Concurrencpp.Interleaving

/-!
# One worker of a thread pool

`thread_pool_worker`: its public queue behind `m_lock`, its private queue, and the thread that runs
`work_loop`.  A critical section of `m_lock` is one step; so is every atomic operation outside it
and every operation on the semaphore.  The exception is the call of `mark_worker_active` inside a
critical section of the thread: there `m_lock` is held over several steps (`Worker.lockFree`).  A
queue holds `Option τ`: `none` is an empty task, such as one that `balance_work` has moved from and
not erased yet.

* `Worker.nextStep` and `Worker.threadStep`: the worker's thread in `drain_queue`, `wait_for_task`,
  `drain_queue_impl` and `work_loop`.  The label says whether a wait times out, what `balance_work`
  gives away, what the running task enqueues locally, and whether an `errors::runtime_shutdown`
  leaves it.
* `Worker.enqueueForeign`: the critical section of `enqueue_foreign` and `ensure_worker_active`;
  what is left to do behind it is an `EnqueuerPc`.
* `Worker.shutdownStep`: `shutdown`.

The idle set of the pool is not part of a worker.  `executed` is a record of the run: the tasks that
the worker's thread has begun to run.
-/

namespace Concurrencpp

/-- Where the thread of a worker is.  `stopped`: no thread of the worker is inside `work_loop`.
`balance` carries how many tasks `balance_work` has already moved away. -/
inductive WorkerPc
  | stopped
  | lock
  | markIdle
  | acquire
  | loadFound
  | relock
  | markActive
  | timedOut
  | loop
  | balance (moved : ℕ)
  | checkAbort
  | running
  | aborted
  | caught
  deriving DecidableEq, Repr

/-- `thread_pool_worker`. -/
structure Worker (τ : Type) where
  privateQueue : List (Option τ)
  publicQueue : List (Option τ)
  semaphore : ℕ
  idle : Bool
  abort : Bool
  atomicAbort : Bool
  taskFoundOrAbort : Bool
  pc : WorkerPc
  assertFailed : Bool
  executed : List τ

/-- The labels of the worker's thread: its next step, the timeout of `try_acquire_until`, a donation
of the next `count` tasks, an `errors::runtime_shutdown` out of `balance_work` or out of the running
task, and an `enqueue_local` by the running task. -/
inductive ThreadMove (τ : Type)
  | step
  | timeout
  | give (count : ℕ)
  | throw
  | enqueueLocal (tasks : List (Option τ))

/-- Where a foreign enqueuer is: outside, or behind the critical section of `enqueue_foreign`, about
to release the semaphore or to join the worker's former thread. -/
inductive EnqueuerPc
  | outside
  | release
  | join
  deriving DecidableEq, Repr

/-- Where the caller of `shutdown` is. -/
inductive ShutdownPc
  | before
  | storeAbort
  | storeFound
  | release
  | join
  | clear
  | done
  deriving DecidableEq, Repr

namespace Worker

variable {τ : Type}

/-- The worker as its constructor leaves it. -/
def initial : Worker τ where
  privateQueue := []
  publicQueue := []
  semaphore := 0
  idle := true
  abort := false
  atomicAbort := false
  taskFoundOrAbort := false
  pc := .stopped
  assertFailed := false
  executed := []

def goto (w : Worker τ) (pc : WorkerPc) : Worker τ := { w with pc := pc }

def check (w : Worker τ) (b : Bool) : Worker τ := { w with assertFailed := w.assertFailed || !b }

/-- The worker's thread does not hold `m_lock` between two of its steps. -/
def lockFree (w : Worker τ) : Bool := w.pc ≠ .markActive

/-- `appears_empty`. -/
def appearsEmpty (w : Worker τ) : Bool := w.privateQueue.isEmpty && !w.taskFoundOrAbort

/-- The thread sets `m_idle` and leaves `work_loop`. -/
def retire (w : Worker τ) : Worker τ := { w with idle := true, pc := .stopped }

/-- The critical section of `drain_queue` behind a `wait_for_task` that returned `true`. -/
def takeQueue (w : Worker τ) : Worker τ :=
  let v := { w.check (!w.publicQueue.isEmpty || w.abort) with taskFoundOrAbort := false }
  if w.abort then v.retire
  else { v.check w.privateQueue.isEmpty with
    privateQueue := w.publicQueue
    publicQueue := w.privateQueue
    pc := .loop }

/-- The last task of the private queue is taken out and invoked; an empty task does nothing. -/
def runTask (w : Worker τ) : Worker τ :=
  { w.check !w.privateQueue.isEmpty with
    privateQueue := w.privateQueue.dropLast
    executed := w.executed ++ w.privateQueue.getLast?.join.toList
    pc := .running }

/-- The next step of the worker's thread. -/
def nextStep (w : Worker τ) : Option (Worker τ) :=
  match w.pc with
  | .stopped => none
  -- `drain_queue` takes the lock, and `wait_for_task` looks at the queue for the first time
  | .lock =>
      if w.publicQueue ≠ [] ∨ w.abort = true then some w.takeQueue else some (w.goto .markIdle)
  -- `mark_worker_idle`
  | .markIdle => some (w.goto .acquire)
  | .acquire =>
      if w.semaphore = 0 then none
      else some { w.goto .loadFound with semaphore := w.semaphore - 1 }
  | .loadFound => some (w.goto (if w.taskFoundOrAbort then .relock else .acquire))
  | .relock =>
      if w.publicQueue = [] ∧ w.abort = false then some (w.goto .acquire)
      else if w.abort then some w.retire
      else some (w.goto .markActive)
  -- the end of `mark_worker_active`; the lock is still held
  | .markActive => some w.takeQueue
  -- the wait has timed out: the lock is taken again, and the queue is not looked at
  | .timedOut => some w.retire
  | .loop => some (w.goto (if w.privateQueue = [] then .lock else .balance 0))
  -- the end of `balance_work`: what has been donated is erased
  | .balance moved => some { w.goto .checkAbort with privateQueue := w.privateQueue.drop moved }
  | .checkAbort => if w.atomicAbort then some (w.goto .aborted) else some w.runTask
  | .running => some (w.goto .loop)
  -- `drain_queue_impl` and the handler of `work_loop` take the lock to set `m_idle`
  | .aborted | .caught => some w.retire

/-- `balance_work` moves the next `count` tasks away. -/
def give (w : Worker τ) (count : ℕ) : Option (Worker τ) :=
  match w.pc with
  | .balance moved =>
      if moved + count ≤ w.privateQueue.length then
        some { w.goto (.balance (moved + count)) with
          privateQueue :=
            List.replicate (moved + count) none ++ w.privateQueue.drop (moved + count) }
      else none
  | _ => none

/-- An `errors::runtime_shutdown` leaves `drain_queue_impl`. -/
def throw (w : Worker τ) : Option (Worker τ) :=
  match w.pc with
  | .balance _ | .running => some (w.goto .caught)
  | _ => none

/-- `enqueue_local`, called by the running task; `none` is the exception of an aborted worker.  A
thread that has left `work_loop` may call it as well: that is `PoolCallbacks.localStep`. -/
def enqueueLocal (w : Worker τ) (tasks : List (Option τ)) : Option (Worker τ) :=
  if w.pc = .running ∧ w.atomicAbort = false then
    some { w with privateQueue := w.privateQueue ++ tasks }
  else none

/-- A step of the worker's thread. -/
def threadStep (w : Worker τ) : ThreadMove τ → Option (Worker τ)
  | .step => w.nextStep
  | .timeout => if w.pc = .acquire then some (w.goto .timedOut) else none
  | .give count => w.give count
  | .throw => w.throw
  | .enqueueLocal tasks => w.enqueueLocal tasks

/-- `enqueue_foreign` up to the end of its critical section, with the decision of
`ensure_worker_active`; `none` is the exception of an aborted worker. -/
def enqueueForeign (w : Worker τ) (tasks : List (Option τ)) : Option (Worker τ × EnqueuerPc) :=
  if w.abort then none
  else
    let v := { w with
      taskFoundOrAbort := true
      publicQueue := w.publicQueue ++ tasks }
    if w.idle then some ({ v with idle := false, pc := .lock }, .join)
    else some (v, if w.publicQueue.isEmpty then .release else .outside)

/-- What an enqueuer does behind the critical section; a joined thread has left `work_loop`. -/
def enqueuerStep (w : Worker τ) : EnqueuerPc → Option (Worker τ × EnqueuerPc)
  | .outside => none
  | .release => some ({ w with semaphore := w.semaphore + 1 }, .outside)
  | .join => some (w, .outside)

/-- `shutdown`.  At `join` it waits for the worker's thread; the exception of a thread that joins
itself is `PoolMove.joinThrows`. -/
def shutdownStep (w : Worker τ) : ShutdownPc → Option (Worker τ × ShutdownPc)
  | .before => some ({ w.check !w.atomicAbort with atomicAbort := true }, .storeAbort)
  | .storeAbort => if w.lockFree then some ({ w with abort := true }, .storeFound) else none
  | .storeFound => some ({ w with taskFoundOrAbort := true }, .release)
  | .release => some ({ w with semaphore := w.semaphore + 1 }, .join)
  | .join => if w.pc = .stopped then some (w, .clear) else none
  | .clear =>
      if w.lockFree then some ({ w with privateQueue := [], publicQueue := [] }, .done) else none
  | .done => none

section steps

variable {w v : Worker τ} {tasks : List (Option τ)}

theorem enqueueLocal_eq_some (hs : w.enqueueLocal tasks = some v) :
    w.pc = .running ∧ v = { w with privateQueue := w.privateQueue ++ tasks } := by
  unfold enqueueLocal at hs
  split_ifs at hs with h
  cases hs
  exact ⟨h.1, rfl⟩

/-- What `enqueue_foreign` can do in its critical section: it starts a thread, or there is one. -/
inductive Accepts (w : Worker τ) (tasks : List (Option τ)) : Worker τ × EnqueuerPc → Prop
  | start (habort : w.abort = false) (hidle : w.idle = true) : Accepts w tasks
      ({ w with
        taskFoundOrAbort := true
        publicQueue := w.publicQueue ++ tasks
        idle := false
        pc := .lock }, .join)
  | active (habort : w.abort = false) (hidle : w.idle = false) : Accepts w tasks
      ({ w with taskFoundOrAbort := true, publicQueue := w.publicQueue ++ tasks },
        if w.publicQueue.isEmpty then .release else .outside)

theorem enqueueForeign_accepts {r : Worker τ × EnqueuerPc} (hs : w.enqueueForeign tasks = some r) :
    w.Accepts tasks r := by
  unfold enqueueForeign at hs
  split at hs
  · cases hs
  next habort =>
    rw [Bool.not_eq_true] at habort
    dsimp only at hs
    split at hs <;> cases hs
    next hidle => exact .start habort hidle
    next hidle => exact .active habort (Bool.eq_false_iff.2 hidle)

theorem abort_of_accepts {r : Worker τ × EnqueuerPc} (h : w.Accepts tasks r) : w.abort = false := by
  cases h <;> assumption

/-- Only an aborted worker refuses a task. -/
theorem abort_of_refuses (hs : w.enqueueForeign tasks = none) : w.abort = true := by
  by_contra habort
  unfold enqueueForeign at hs
  rw [if_neg habort] at hs
  dsimp only at hs
  split_ifs at hs

/-- What a step of `shutdown` can do. -/
inductive ShutdownStep (w : Worker τ) : ShutdownPc → Worker τ × ShutdownPc → Prop
  | before :
      ShutdownStep w .before ({ w.check !w.atomicAbort with atomicAbort := true }, .storeAbort)
  | storeAbort (hl : w.lockFree) :
      ShutdownStep w .storeAbort ({ w with abort := true }, .storeFound)
  | storeFound : ShutdownStep w .storeFound ({ w with taskFoundOrAbort := true }, .release)
  | release : ShutdownStep w .release ({ w with semaphore := w.semaphore + 1 }, .join)
  | join (hpc : w.pc = .stopped) : ShutdownStep w .join (w, .clear)
  | clear (hl : w.lockFree) :
      ShutdownStep w .clear ({ w with privateQueue := [], publicQueue := [] }, .done)

theorem shutdownStep_cases {pc : ShutdownPc} {r : Worker τ × ShutdownPc}
    (hs : w.shutdownStep pc = some r) : w.ShutdownStep pc r := by
  cases pc with
  | storeAbort | join | clear =>
    simp only [shutdownStep] at hs
    split_ifs at hs with h
    cases hs
    constructor
    exact h
  | before | storeFound | release => cases hs; constructor
  | done => cases hs

end steps

end Worker
end Concurrencpp
