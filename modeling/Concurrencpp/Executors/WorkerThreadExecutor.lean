import Concurrencpp.Interleaving

/-!
# The worker thread executor

`worker_thread_executor`: one thread, a private queue that only this thread touches, and a public
queue behind `m_lock`.  The thread is started by the first `enqueue_foreign`.

* `WorkerThreadExecutor.enqueueForeign` and `enqueueLocal`: what `enqueue` does with a span; the
  overload for one task does the same with the span of this task.
* `WorkerThreadExecutor.threadStep`: the thread in `work_loop`, `drain_queue`, `wait_for_task` and
  `drain_queue_impl`.
* `WorkerThreadExecutor.shutdownStep`: the call of `shutdown` that finds `m_atomic_abort` unset.
  Every other call returns at once and changes nothing.

A critical section of `m_lock` is one step, and so are the operations on the atomic flags and on the
semaphore, the call of a task and the destruction of a task.  The critical section of the first
`enqueue_foreign` reaches up to the end of the function, since it returns with the lock held.  The
semaphore is a counter without a bound.

An accepted task carries its origin and its number in the order of acceptance.  These and the fields
`accepted`, `executed` and `destroyed` are records of the run.
-/

namespace Concurrencpp

/-- The function that a task has come in by. -/
inductive TaskSource
  | enqueueForeign
  | enqueueLocal
  deriving DecidableEq, Repr

/-- Where the thread is: not started, before the lock in `drain_queue`, in `wait_for_task` before
`m_semaphore.acquire()` and before the lock behind it, in the loop of `drain_queue_impl`, with a
task that it has taken out, inside a task, behind `work_loop` in `m_thread_terminated_callback`, or
at its end. -/
inductive WorkerThreadPc (τ : Type)
  | absent
  | lock
  | acquire
  | relock
  | drain
  | popped (task : (τ × TaskSource) × ℕ)
  | running
  | callback
  | finished
  deriving DecidableEq

/-- Where `shutdown` is: before its exchange, before its first critical section, before the store to
`m_private_atomic_abort`, before the release, before the join, before its second critical section,
with tasks left to destroy, or at its end.  `failed`: the thread has tried to join itself. -/
inductive WorkerThreadShutdownPc (τ : Type)
  | before
  | lock
  | store
  | release
  | join
  | move
  | clear (rest : List ((τ × TaskSource) × ℕ))
  | done
  | failed
  deriving DecidableEq

/-- `worker_thread_executor`, with `m_thread.joinable()`, the foreign threads that are about to
release the semaphore, and the caller of `shutdown`; `inside` says that this is a task of the
executor. -/
structure WorkerThreadExecutor (τ : Type) where
  privateQueue : List ((τ × TaskSource) × ℕ)
  publicQueue : List ((τ × TaskSource) × ℕ)
  privateAtomicAbort : Bool
  semaphore : ℕ
  joinable : Bool
  atomicAbort : Bool
  abort : Bool
  pc : WorkerThreadPc τ
  releasing : ℕ → Bool
  shutdown : WorkerThreadShutdownPc τ
  inside : Bool
  assertFailed : Bool
  accepted : List (τ × TaskSource)
  executed : List ((τ × TaskSource) × ℕ)
  destroyed : List ((τ × TaskSource) × ℕ)

/-- A call of `enqueue` by the foreign thread `t`, where `available` says whether a thread can be
started, and its release of the semaphore; the next step of the executor's thread; a call of
`enqueue` or `shutdown` by user code on this thread; the next step of `shutdown`. -/
inductive WorkerThreadMove (τ : Type)
  | enqueue (t : ℕ) (tasks : List τ) (available : Bool)
  | release (t : ℕ)
  | thread
  | enqueueLocal (tasks : List τ)
  | shutdownLocal
  | shutdown

/-- How `enqueue_foreign` leaves its critical section: it returns, it goes on to release the
semaphore, or by the exception of an aborted executor or of the constructor of `std::thread`. -/
inductive ForeignOutcome
  | returns
  | release
  | runtimeShutdown
  | threadError
  deriving DecidableEq, Repr

namespace WorkerThreadPc

variable {τ : Type}

/-- User code runs on the thread. -/
def userCode : WorkerThreadPc τ → Bool
  | .running | .callback => true
  | .absent | .lock | .acquire | .relock | .drain | .popped _ | .finished => false

def isFinished : WorkerThreadPc τ → Bool
  | .finished => true
  | .absent | .lock | .acquire | .relock | .drain | .popped _ | .running | .callback => false

end WorkerThreadPc

/-- The call has ended, by a return or by an exception. -/
def WorkerThreadShutdownPc.ended {τ : Type} : WorkerThreadShutdownPc τ → Bool
  | .done | .failed => true
  | .before | .lock | .store | .release | .join | .move | .clear _ => false

namespace WorkerThreadExecutor

variable {τ : Type}

/-- A new executor. -/
def initial : WorkerThreadExecutor τ where
  privateQueue := []
  publicQueue := []
  privateAtomicAbort := false
  semaphore := 0
  joinable := false
  atomicAbort := false
  abort := false
  pc := .absent
  releasing := fun _ => false
  shutdown := .before
  inside := false
  assertFailed := false
  accepted := []
  executed := []
  destroyed := []

def goto (s : WorkerThreadExecutor τ) (pc : WorkerThreadPc τ) : WorkerThreadExecutor τ :=
  { s with pc := pc }

def check (s : WorkerThreadExecutor τ) (b : Bool) : WorkerThreadExecutor τ :=
  { s with assertFailed := s.assertFailed || !b }

/-- The tasks as they are put into a queue. -/
def stamp (s : WorkerThreadExecutor τ) (source : TaskSource) (tasks : List τ) :
    List ((τ × TaskSource) × ℕ) :=
  (tasks.map (·, source)).zipIdx s.accepted.length

/-- The record of what a queue has accepted. -/
def accept (s : WorkerThreadExecutor τ) (source : TaskSource) (tasks : List τ) :
    WorkerThreadExecutor τ :=
  { s with accepted := s.accepted ++ tasks.map (·, source) }

/-- `enqueue_foreign` up to the end of its critical section. -/
def enqueueForeign (s : WorkerThreadExecutor τ) (tasks : List τ) (available : Bool) :
    WorkerThreadExecutor τ × ForeignOutcome :=
  if s.abort then (s, .runtimeShutdown)
  else
    let v := { s.accept .enqueueForeign tasks with
      publicQueue := s.publicQueue ++ s.stamp .enqueueForeign tasks }
    if s.joinable then (v, if s.publicQueue.isEmpty then .release else .returns)
    -- `make_os_worker_thread`
    else if available then ({ v with joinable := true, pc := .lock }, .returns)
    else (v, .threadError)

/-- `enqueue_local`; the exception of an aborted executor changes nothing. -/
def enqueueLocal (s : WorkerThreadExecutor τ) (tasks : List τ) : WorkerThreadExecutor τ :=
  if s.privateAtomicAbort then s
  else { s.accept .enqueueLocal tasks with
    privateQueue := s.privateQueue ++ s.stamp .enqueueLocal tasks }

/-- `drain_queue` behind `wait_for_task`; the lock is held. -/
def takeQueue (s : WorkerThreadExecutor τ) : WorkerThreadExecutor τ :=
  let v := s.check (!s.publicQueue.isEmpty || s.abort)
  if s.abort then v.goto .callback
  else { v.check s.privateQueue.isEmpty with
    privateQueue := s.publicQueue
    publicQueue := s.privateQueue
    pc := .drain }

/-- The next step of the thread. -/
def threadStep (s : WorkerThreadExecutor τ) : Option (WorkerThreadExecutor τ) :=
  match s.pc with
  | .absent | .finished => none
  | .lock | .relock =>
      if s.publicQueue ≠ [] ∨ s.abort = true then some s.takeQueue else some (s.goto .acquire)
  | .acquire =>
      if s.semaphore = 0 then none
      else some { s.goto .relock with semaphore := s.semaphore - 1 }
  | .drain =>
      match s.privateQueue with
      | [] => some (s.goto .lock)
      | task :: rest => some { s.goto (.popped task) with privateQueue := rest }
  -- an aborted executor destroys the task that it has taken out
  | .popped task =>
      if s.privateAtomicAbort then
        some { s.goto .callback with destroyed := s.destroyed ++ [task] }
      else some { s.goto .running with executed := s.executed ++ [task] }
  | .running => some (s.goto .drain)
  | .callback => some (s.goto .finished)

/-- `shutdown`. -/
def shutdownStep (s : WorkerThreadExecutor τ) : Option (WorkerThreadExecutor τ) :=
  match s.shutdown with
  | .before => some { s with atomicAbort := true, shutdown := .lock }
  | .lock => some { s with abort := true, shutdown := .store }
  | .store => some { s with privateAtomicAbort := true, shutdown := .release }
  | .release => some { s with semaphore := s.semaphore + 1, shutdown := .join }
  | .join =>
      if s.joinable then
        -- a thread that joins itself gets an exception
        if s.inside then some { s with shutdown := .failed }
        else if s.pc.isFinished then some { s with joinable := false, shutdown := .move }
        else none
      else some { s with shutdown := .move }
  | .move =>
      some { s with
        privateQueue := []
        publicQueue := []
        shutdown := .clear (s.privateQueue ++ s.publicQueue) }
  | .clear [] => some { s with shutdown := .done }
  | .clear (task :: rest) =>
      some { s with destroyed := s.destroyed ++ [task], shutdown := .clear rest }
  | .done | .failed => none

/-- The thread of the executor is itself inside `shutdown`. -/
def blocked (s : WorkerThreadExecutor τ) : Bool := s.inside && !s.shutdown.ended

/-- One step. -/
def step (s : WorkerThreadExecutor τ) : WorkerThreadMove τ → Option (WorkerThreadExecutor τ)
  | .enqueue t tasks available =>
      if s.releasing t then none
      else
        let v := s.enqueueForeign tasks available
        some { v.1 with releasing := Function.update s.releasing t (v.2 = .release) }
  | .release t =>
      if s.releasing t then
        some { s with
          semaphore := s.semaphore + 1
          releasing := Function.update s.releasing t false }
      else none
  | .thread => if s.blocked then none else s.threadStep
  | .enqueueLocal tasks =>
      if s.pc.userCode ∧ s.blocked = false then some (s.enqueueLocal tasks) else none
  | .shutdownLocal =>
      if s.pc.userCode ∧ s.atomicAbort = false then
        some { s with atomicAbort := true, shutdown := .lock, inside := true }
      else none
  | .shutdown => s.shutdownStep

def IsInitial (s : WorkerThreadExecutor τ) : Prop := s = initial

/-- The states that some interleaving reaches. -/
def Reachable : WorkerThreadExecutor τ → Prop := Interleaving.Reachable step IsInitial

end WorkerThreadExecutor
end Concurrencpp
