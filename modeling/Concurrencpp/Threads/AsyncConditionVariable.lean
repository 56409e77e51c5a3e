import Concurrencpp.Threads.AsyncLock

/-!
# The asynchronous condition variable

One `async_condition_variable` and one `async_lock`, used by any number of tasks on any number of
threads.  A thread runs a stack of tasks: a task that resumes another one goes on when that one has
suspended or left.  Only the innermost task of a thread takes a step.

* The steps on the lock are those of `AsyncLock.step`; `await` calls `scoped_async_lock::unlock` and
  `scoped_async_lock::lock` through them.
* `m_lock` of the condition variable is locked in a step of its own; `await_suspend` holds it over
  the whole of `scoped_async_lock::unlock`.
* `coAwait` starts the coroutine that an earlier call of `await` has returned.  The overload with a
  predicate is a loop of such awaits.
* A resume executor stores the task (`post`), runs it inside `post` (`inline`) or throws (`throw`);
  a stored task is run or dropped by a thread that runs nothing, or whose innermost task is in user
  code or inside `post` (`hosts`).
* The coroutine of a task is known by its task, and so is its `cv_awaiter`.

`arrivals` is a record of the run: the tasks whose awaiter has been pushed, in this order; the first
`departed` of them have been dequeued.
-/

namespace Concurrencpp

open Function (update)

/-- The exceptions of `await`. -/
inductive CvError
  | invalidResumeExecutor
  | lockUnlocked
  | brokenTask
  deriving DecidableEq, Repr

/-- Where a task is in a function of the condition variable, on the wrapper `w`.  At `release`,
`releasing`, `notifyOne` and `notifyAll` it holds `m_lock`. -/
inductive CvPc
  | outside
  | enterAwait (w : ℕ)
  | release (w : ℕ)
  | releasing (w : ℕ)
  | waiting (w : ℕ)
  | resumeOn (w : ℕ)
  | posted (w : ℕ)
  | relock (w : ℕ)
  | enterNotifyOne
  | notifyOne
  | resumeOne (awaiter : Option ℕ)
  | enterNotifyAll
  | notifyAll
  | resumeAll (awaiters : Slist ℕ)
  | threw (e : CvError)
  deriving DecidableEq, Repr

/-- The condition variable, the lock, the tasks and the threads. -/
structure CvSystem where
  lock : AsyncLock
  cvLock : Option ℕ
  awaiters : Slist ℕ
  next : ℕ → Option ℕ
  pcs : ℕ → CvPc
  frames : ℕ → List ℕ
  running : ℕ → Bool
  arrivals : List ℕ
  departed : ℕ

/-- A call from user code; `executor` says whether the given executor is not null. -/
inductive CvCall
  | await (w : ℕ) (executor : Bool)
  | coAwait (w : ℕ)
  | notifyOne
  | notifyAll
  deriving DecidableEq, Repr

/-- What the thread `t` does: a step of its innermost task on the lock, a call of the condition
variable, the next step there, what the resume executor of `await` does in `post`, a stored task
that is run or dropped, a task that begins to run its user code or leaves the thread. -/
inductive CvMove
  | lock (t : ℕ) (a : LockAction)
  | call (t : ℕ) (c : CvCall)
  | step (t : ℕ)
  | post (t : ℕ)
  | inline (t : ℕ)
  | throw (t : ℕ)
  | execute (t n : ℕ) (invoked : Bool)
  | enter (t n : ℕ)
  | leave (t : ℕ)
  deriving DecidableEq, Repr

namespace CvSystem

/-- Nobody waits and no thread runs anything. -/
def initial : CvSystem where
  lock := .initial
  cvLock := none
  awaiters := .empty
  next := fun _ => none
  pcs := fun _ => .outside
  frames := fun _ => []
  running := fun _ => false
  arrivals := []
  departed := 0

def setPc (s : CvSystem) (n : ℕ) (pc : CvPc) : CvSystem :=
  { s with pcs := update s.pcs n pc }

/-- The task runs on the thread, inside the task that has run there. -/
def push (s : CvSystem) (t n : ℕ) : CvSystem :=
  { s with
    frames := update s.frames t (n :: s.frames t)
    running := update s.running n true }

/-- The innermost task of the thread suspends or ends. -/
def pop (s : CvSystem) (t n : ℕ) : CvSystem :=
  { s with
    frames := update s.frames t (s.frames t).tail
    running := update s.running n false }

/-- The task is in none of the functions of the lock and the condition variable. -/
def UserCode (s : CvSystem) (n : ℕ) : Prop := s.lock.pcs n = .idle ∧ s.pcs n = .outside

instance (s : CvSystem) (n : ℕ) : Decidable (s.UserCode n) := inferInstanceAs (Decidable (_ ∧ _))

/-- The task is inside `executor::post` of `resume_on`. -/
def posting (s : CvSystem) (n : ℕ) : Bool :=
  match s.pcs n, s.lock.pcs n with
  | .resumeOn _, _ => true
  | .outside, .resumeOn _ => true
  | _, _ => false

/-- The thread may begin to run another task. -/
def hosts (s : CvSystem) (t : ℕ) : Bool :=
  match s.frames t with
  | [] => true
  | n :: _ => decide (s.UserCode n) || s.posting n

/-! ### Steps on the lock -/

/-- Which steps on the lock a task takes itself: those of the executor are not among them, and
inside `await_suspend` only those of `scoped_async_lock::unlock`. -/
def mayLock (s : CvSystem) (n : ℕ) (a : LockAction) : Bool :=
  match s.pcs n with
  | .outside => a ≠ .run ∧ a ≠ .drop
  | .releasing _ =>
      match a, s.lock.pcs n with
      | .advance, .threw _ => false
      | .advance, _ => true
      | _, _ => false
  | _ => false

/-- A task that has suspended leaves its thread; one that `retry` has resumed runs on it. -/
def afterLock (s : CvSystem) (t n : ℕ) (l : AsyncLock) : CvSystem :=
  match l.pcs n with
  | .suspended _ | .posted _ => { s with lock := l }.pop t n
  | _ =>
      match s.lock.pcs n with
      | .retry _ (some m) | .rethrow (some m) => { s with lock := l }.push t m
      | _ => { s with lock := l }

def lockStep (s : CvSystem) (t n : ℕ) (a : LockAction) : Option CvSystem :=
  if s.mayLock n a then (s.lock.step (n, a)).map (s.afterLock t n) else none

/-! ### `async_condition_variable` -/

/-- `std::unique_lock<std::mutex> lock(m_lock)`. -/
def lockMutex (s : CvSystem) (n : ℕ) (pc : CvPc) : Option CvSystem :=
  match s.cvLock with
  | none => some { s.setPc n pc with cvLock := some n }
  | some _ => none

/-- `verify_await_params`. -/
def verifyAwaitParams (executor : Bool) (x : ScopedLock) : CvPc :=
  if !executor then .threw .invalidResumeExecutor
  else if !x.owns then .threw .lockUnlocked
  else .outside

def call (s : CvSystem) (n : ℕ) : CvCall → Option CvSystem
  | .await w executor => (s.lock.wrapper w).map fun x => s.setPc n (verifyAwaitParams executor x)
  | .coAwait w => some (s.setPc n (.enterAwait w))
  | .notifyOne => some (s.setPc n .enterNotifyOne)
  | .notifyAll => some (s.setPc n .enterNotifyAll)

/-- `m_parent.m_awaiters.push_back(*this)`, and `m_lock` is unlocked. -/
def pushAwaiter (s : CvSystem) (t n w : ℕ) : CvSystem :=
  let p := s.awaiters.pushBack (update s.next n none) n
  { (s.setPc n (.waiting w)).pop t n with
    cvLock := none
    awaiters := p.1
    next := p.2
    arrivals := s.arrivals ++ [n] }

/-- `cv_awaiter::resume`. -/
def resume (s : CvSystem) (t m : ℕ) : Option CvSystem :=
  match s.pcs m with
  | .waiting w => some ((s.setPc m (.resumeOn w)).push t m)
  | _ => none

/-- The critical section of `notify_one`. -/
def notifyOne (s : CvSystem) (n : ℕ) : CvSystem :=
  let p := s.awaiters.popFront s.next
  { s.setPc n (.resumeOne p.1) with
    cvLock := none
    awaiters := p.2
    departed := s.departed + p.1.toList.length }

/-- The critical section of `notify_all`. -/
def notifyAll (s : CvSystem) (n : ℕ) : CvSystem :=
  { s.setPc n (.resumeAll s.awaiters) with
    cvLock := none
    awaiters := .empty
    departed := s.arrivals.length }

/-- A round of the loop of `notify_all`. -/
def resumeAll (s : CvSystem) (t n : ℕ) (l : Slist ℕ) : Option CvSystem :=
  match l.popFront s.next with
  | (none, _) => some (s.setPc n .outside)
  | (some m, l') => (s.setPc n (.resumeAll l')).resume t m

/-- The next step of a task in a function of the condition variable. -/
def nextStep (s : CvSystem) (t n : ℕ) : Option CvSystem :=
  match s.pcs n with
  | .outside | .waiting _ | .resumeOn _ | .posted _ => none
  | .enterAwait w => s.lockMutex n (.release w)
  | .release w =>
      (s.lock.step (n, .scopedUnlock w)).map fun l => { s.setPc n (.releasing w) with lock := l }
  | .releasing w =>
      match s.lock.pcs n with
      | .idle => some (s.pushAwaiter t n w)
      | .threw _ => some { s.setPc n .outside with cvLock := none }
      | _ => none
  | .relock w =>
      (s.lock.step (n, .scopedLock w true)).map fun l => { s.setPc n .outside with lock := l }
  | .enterNotifyOne => s.lockMutex n .notifyOne
  | .notifyOne => some (s.notifyOne n)
  | .resumeOne none => some (s.setPc n .outside)
  | .resumeOne (some m) => (s.setPc n .outside).resume t m
  | .enterNotifyAll => s.lockMutex n .notifyAll
  | .notifyAll => some (s.notifyAll n)
  | .resumeAll l => s.resumeAll t n l
  | .threw _ => some (s.setPc n .outside)

/-! ### The resume executors -/

/-- `post` of the `resume_on` in `await_impl` stores the task. -/
def post (s : CvSystem) (t n : ℕ) : Option CvSystem :=
  match s.pcs n with
  | .resumeOn w => some ((s.setPc n (.posted w)).pop t n)
  | _ => none

/-- `post` of either `resume_on` runs the task before it returns. -/
def inline (s : CvSystem) (n : ℕ) : Option CvSystem :=
  match s.pcs n with
  | .resumeOn w => some (s.setPc n (.relock w))
  | .outside => ((s.lock.step (n, .post)).bind fun l => l.step (n, .run)).map
      fun l => { s with lock := l }
  | _ => none

/-- `post` of the `resume_on` in `await_impl` throws. -/
def throw (s : CvSystem) (n : ℕ) : Option CvSystem :=
  match s.pcs n with
  | .resumeOn _ => some (s.setPc n (.threw .brokenTask))
  | _ => none

/-- A stored task is run, or destroyed and thereby resumed with an interrupt. -/
def execute (s : CvSystem) (t n : ℕ) (invoked : Bool) : Option CvSystem :=
  match s.pcs n with
  | .posted w => some ((s.setPc n (if invoked then .relock w else .threw .brokenTask)).push t n)
  | .outside => (s.lock.step (n, if invoked then .run else .drop)).map
      fun l => { s with lock := l }.push t n
  | _ => none

/-! ### Steps -/

/-- A step of the innermost task of the thread. -/
def ofTop (s : CvSystem) (t : ℕ) (f : ℕ → Option CvSystem) : Option CvSystem :=
  match s.frames t with
  | [] => none
  | n :: _ => f n

def step (s : CvSystem) : CvMove → Option CvSystem
  | .lock t a => s.ofTop t fun n => s.lockStep t n a
  | .call t c => s.ofTop t fun n => if s.UserCode n then s.call n c else none
  | .step t => s.ofTop t fun n => s.nextStep t n
  | .post t => s.ofTop t fun n => s.post t n
  | .inline t => s.ofTop t fun n => s.inline n
  | .throw t => s.ofTop t fun n => s.throw n
  | .execute t n invoked => if s.hosts t then s.execute t n invoked else none
  | .enter t n =>
      if s.hosts t ∧ s.UserCode n ∧ s.running n = false then some (s.push t n) else none
  | .leave t => s.ofTop t fun n => if s.UserCode n then some (s.pop t n) else none

def IsInitial (s : CvSystem) : Prop := s = initial

def Reachable (s : CvSystem) : Prop := Interleaving.Reachable step IsInitial s

/-- A thread runs a task that locks with a guard. -/
def lockGuard (t n w : ℕ) : List CvMove :=
  [.enter t n, .lock t (.lock true), .lock t .advance, .lock t .advance, .lock t (.finish w)]

end CvSystem
end Concurrencpp
