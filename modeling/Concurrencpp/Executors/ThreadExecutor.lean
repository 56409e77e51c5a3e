import Concurrencpp.Interleaving

/-!
# The thread executor

`thread_executor`: every task runs in a thread of its own.  A thread that has run its task moves
itself from `m_workers` to `m_last_retired` and joins the thread that it found there; `shutdown`
joins the last one, and holds the mutex while it does so.

* `RetirePc`: where a thread is between its start and its end.
* `ThreadExecutor`: the executor, its threads and the caller of its `shutdown`.  The elements of the
  two lists are numbered in the order in which `enqueue_impl` has made them, and a thread has the
  number of its element.  A critical section of `m_lock` is one step.

The construction of a thread may fail: a move of `enqueue` says how many threads can be started.  An
element of `m_workers` whose thread could not be started has no thread (`RetirePc.absent`).

`joined` and `executed` are records of the run; `terminated` says that the handle of a thread that
was not joined has been destroyed.
-/

namespace Concurrencpp

/-- Where a thread of the executor is: before its task, inside it, before the critical section of
`retire_worker`, or behind it with the local list `last_retired`. -/
inductive RetirePc (τ : Type)
  | absent
  | task (task : τ)
  | running
  | retire
  | join (lastRetired : List ℕ)
  | finished

namespace RetirePc

variable {τ : Type}

def isFinished : RetirePc τ → Bool
  | .finished => true
  | _ => false

/-- The thread is inside its task, from which it may call the executor. -/
def isRunning : RetirePc τ → Bool
  | .running => true
  | _ => false

/-- The thread has not come through the critical section of `retire_worker`. -/
def busy : RetirePc τ → Bool
  | .task _ | .running | .retire => true
  | .absent | .join _ | .finished => false

/-- The local list `last_retired`. -/
def lastRetired : RetirePc τ → List ℕ
  | .join lastRetired => lastRetired
  | _ => []

end RetirePc

/-- Where the caller of `shutdown` is; in `joining` it holds `m_lock`. -/
inductive ThreadShutdownPc
  | before
  | lock
  | waiting
  | joining
  | done
  deriving DecidableEq, Repr

/-- `thread_executor`. -/
structure ThreadExecutor (τ : Type) where
  workers : List ℕ
  lastRetired : List ℕ
  abort : Bool
  atomicAbort : Bool
  shutdown : ThreadShutdownPc
  elements : ℕ
  threads : ℕ → RetirePc τ
  terminated : Bool
  joined : List ℕ
  executed : List τ

/-- A call of `enqueue` by one of the threads or from outside, when `available` threads can be
started; the next step of a thread; the next step of `shutdown`. -/
inductive RetireMove (τ : Type)
  | enqueue (caller : Option ℕ) (tasks : List τ) (available : ℕ)
  | thread (i : ℕ)
  | shutdown

namespace ThreadExecutor

variable {τ : Type}

/-- A new executor. -/
def initial : ThreadExecutor τ where
  workers := []
  lastRetired := []
  abort := false
  atomicAbort := false
  shutdown := .before
  elements := 0
  threads := fun _ => .absent
  terminated := false
  joined := []
  executed := []

def setThread (s : ThreadExecutor τ) (i : ℕ) (pc : RetirePc τ) : ThreadExecutor τ :=
  { s with threads := Function.update s.threads i pc }

/-- Nobody holds `m_lock` between two steps, except `shutdown` in its join. -/
def lockFree (s : ThreadExecutor τ) : Bool := s.shutdown ≠ .joining

/-- `m_workers.emplace_front()`. -/
def emplaceFront (s : ThreadExecutor τ) : ThreadExecutor τ :=
  { s with
    workers := s.elements :: s.workers
    elements := s.elements + 1 }

/-- `enqueue_impl`, when the thread can be started. -/
def enqueueImpl (s : ThreadExecutor τ) (task : τ) : ThreadExecutor τ :=
  s.emplaceFront.setThread s.elements (.task task)

/-- The loop of `enqueue`; the exception of a thread that cannot be started leaves it. -/
def enqueueAll (s : ThreadExecutor τ) : List τ → ℕ → ThreadExecutor τ
  | [], _ => s
  | _ :: _, 0 => s.emplaceFront
  | task :: tasks, available + 1 => (s.enqueueImpl task).enqueueAll tasks available

/-- `enqueue`; an aborted executor throws. -/
def enqueue (s : ThreadExecutor τ) (tasks : List τ) (available : ℕ) : ThreadExecutor τ :=
  if s.abort then s else s.enqueueAll tasks available

/-- The critical section of `retire_worker`. -/
def retireWorker (s : ThreadExecutor τ) (i : ℕ) : ThreadExecutor τ :=
  { s.setThread i (.join s.lastRetired) with
    workers := s.workers.erase i
    lastRetired := [i] }

/-- The thread at the front of a list is joined, and the list is destroyed. -/
def join (s : ThreadExecutor τ) (j : ℕ) (rest : List ℕ) : ThreadExecutor τ :=
  { s with
    joined := s.joined ++ [j]
    terminated := s.terminated || !rest.isEmpty }

/-- The next step of a thread. -/
def threadStep (s : ThreadExecutor τ) (i : ℕ) : Option (ThreadExecutor τ) :=
  match s.threads i with
  | .absent | .finished => none
  | .task task => some { s.setThread i .running with executed := s.executed ++ [task] }
  | .running => some (s.setThread i .retire)
  | .retire => if s.lockFree then some (s.retireWorker i) else none
  | .join [] => some (s.setThread i .finished)
  | .join (j :: rest) =>
      if (s.threads j).isFinished then some ((s.join j rest).setThread i .finished) else none

/-- The next step of `shutdown`. -/
def shutdownStep (s : ThreadExecutor τ) : Option (ThreadExecutor τ) :=
  match s.shutdown with
  | .before => some { s with
      atomicAbort := true
      shutdown := .lock }
  | .lock => some { s with
      abort := true
      shutdown := .waiting }
  -- the predicate of the wait
  | .waiting =>
      if s.workers = [] then
        some { s with shutdown := if s.lastRetired = [] then .done else .joining }
      else none
  | .joining =>
      match s.lastRetired with
      | [] => none
      | j :: rest =>
          if (s.threads j).isFinished then some { s.join j rest with
            lastRetired := []
            shutdown := .done }
          else none
  | .done => none

/-- One step. -/
def step (s : ThreadExecutor τ) : RetireMove τ → Option (ThreadExecutor τ)
  | .enqueue caller tasks available =>
      if s.lockFree ∧ caller.all (fun i => (s.threads i).isRunning) then
        some (s.enqueue tasks available)
      else none
  | .thread i => s.threadStep i
  | .shutdown => s.shutdownStep

def IsInitial (s : ThreadExecutor τ) : Prop := s = initial

/-- Every thread that the call needs can be started. -/
def Starts (_ : ThreadExecutor τ) : RetireMove τ → Prop
  | .enqueue _ tasks available => tasks.length ≤ available
  | .thread _ | .shutdown => True

instance (s : ThreadExecutor τ) (m : RetireMove τ) : Decidable (Starts s m) :=
  match m with
  | .enqueue _ tasks available => inferInstanceAs (Decidable (tasks.length ≤ available))
  | .thread _ | .shutdown => .isTrue trivial

end ThreadExecutor
end Concurrencpp
