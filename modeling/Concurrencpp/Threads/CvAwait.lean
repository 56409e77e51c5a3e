import Concurrencpp.Threads.CvSteps

/-!
# The calls of `async_condition_variable::await`

The two overloads of `await` over the steps of `CvSystem`, from the call to what its caller gets.

* `create` is the call: `verify_await_params`, which throws or lets a `lazy_result` come into being;
  `drop` destroys that before it has started, `start` starts it.
* The overload without a predicate is `coAwait` of `CvSystem`.  It is over when its task has come
  back to user code (`completion`).  The overload with a predicate is the loop around it: `test` is
  the end of an evaluation of the predicate, with the value or the exception that it likes.  The
  evaluation begins when the phase `testing` does, and in between its task is in user code.
* `finish` hands the outcome to the caller.

The scoped lock that `await` gets is a plain object behind a reference.  From `create` to `finish`
it is lent to the call (`lender`): nobody else changes it, the predicate included.  It is a wrapper
of the lock that is modelled.

`tests` is a record of the run: the evaluations of the predicate in the current call of a task.
-/

namespace Concurrencpp

/-- The overloads of `await`. -/
inductive AwaitOverload
  | plain
  | predicate
  deriving DecidableEq, Repr

/-- What ends an `await` with an exception: its predicate, the condition variable or the lock. -/
inductive AwaitError
  | predicate
  | cv (e : CvError)
  | lock (e : LockError)
  deriving DecidableEq, Repr

/-- How far the call of `await` of a task has come; `w` is the scoped lock. -/
inductive AwaitCall
  | none
  | created (o : AwaitOverload) (w : ℕ)
  | testing (w : ℕ)
  | waiting (o : AwaitOverload) (w : ℕ)
  | returned (o : AwaitOverload) (w : ℕ)
  | threw (o : AwaitOverload) (w : ℕ) (e : AwaitError)
  deriving DecidableEq, Repr

/-- The scoped lock of the call. -/
def AwaitCall.wrapper : AwaitCall → Option ℕ
  | .none => Option.none
  | .created _ w | .testing w | .waiting _ w | .returned _ w | .threw _ w _ => some w

/-- The scoped lock that the call itself is at work on. -/
def AwaitCall.awaits : AwaitCall → Option ℕ
  | .waiting _ w => some w
  | _ => Option.none

/-- The call is over, and its caller does not know yet. -/
def AwaitCall.completed : AwaitCall → Bool
  | .returned _ _ | .threw _ _ _ => true
  | _ => false

/-- An evaluation of the predicate: whether the scoped lock owned the lock, and the value. -/
structure PredicateTest where
  owned : Bool
  value : Bool
  deriving DecidableEq, Repr

/-- The wrapper that the next step of the task writes. -/
def LockPc.writes : LockPc → Option ℕ
  | .granted (.ofScoped w) | .tried (.ofScoped w) _ => some w
  | .unlocking (.ofScoped w) | .unlocked (.ofScoped w) => some w
  | .unlocking (.ofDestructor w) | .unlocked (.ofDestructor w) => some w
  | _ => none

/-- The condition variable and the lock, and the calls of `await`. -/
structure CvAwaits where
  system : CvSystem
  calls : ℕ → AwaitCall
  lender : ℕ → Option ℕ
  tests : ℕ → List PredicateTest

/-- What a thread does: a step of `CvSystem`, or a step of the call of its innermost task. -/
inductive AwaitMove
  | system (mv : CvMove)
  | create (t w : ℕ) (o : AwaitOverload) (executor : Bool)
  | drop (t : ℕ)
  | start (t : ℕ)
  | test (t : ℕ) (result : Option Bool)
  | finish (t : ℕ)
  deriving DecidableEq, Repr

namespace CvAwaits

def initial : CvAwaits where
  system := .initial
  calls := fun _ => .none
  lender := fun _ => none
  tests := fun _ => []

/-- The lock. -/
def lock (s : CvAwaits) : AsyncLock := s.system.lock

def setCall (s : CvAwaits) (n : ℕ) (c : AwaitCall) : CvAwaits :=
  { s with calls := Function.update s.calls n c }

def lend (s : CvAwaits) (w : ℕ) (n : Option ℕ) : CvAwaits :=
  { s with lender := Function.update s.lender w n }

/-- `lock.owns_lock()`, for a wrapper of the lock. -/
def owns (s : CvAwaits) (w : ℕ) : Bool := s.lock.wrapper w = some ⟨true, true⟩

/-! ### Steps of the system -/

/-- The task touches no wrapper that is lent to somebody else. -/
def mayTouch (s : CvAwaits) (n : ℕ) (a : LockAction) : Bool :=
  a.wrappers.all (fun w => s.lender w = none) &&
    (s.lock.pcs n).writes.all fun w => s.lender w = none || (s.calls n).awaits = some w

/-- The calls of `await` are steps of their own, and a task whose call is over goes on with
`finish`. -/
def mayStep (s : CvAwaits) : CvMove → Bool
  | .lock t a => (s.system.frames t).head?.all fun n => s.mayTouch n a && !(s.calls n).completed
  | .call t c => (s.system.frames t).head?.all fun n => !(s.calls n).completed &&
      decide (c = .notifyOne ∨ c = .notifyAll)
  | _ => true

/-- How the overload without a predicate ends, when the next step of its task leads to user code. -/
def completion (s : CvSystem) (n : ℕ) (o : AwaitOverload) (w : ℕ) : AwaitCall :=
  match s.pcs n, s.lock.pcs n with
  | .threw e, _ => .threw o w (.cv e)
  | _, .threw e => .threw o w (.lock e)
  | _, _ =>
      match o with
      | .plain => .returned .plain w
      | .predicate => .testing w

/-- What a step of the task `n` means to its call. -/
def afterStep (s : CvAwaits) (sys : CvSystem) (n : ℕ) : AwaitCall :=
  match s.calls n with
  | .waiting o w => if sys.UserCode n then completion s.system n o w else .waiting o w
  | c => c

def systemStep (s : CvAwaits) (mv : CvMove) : Option CvAwaits :=
  if s.mayStep mv then
    (s.system.step mv).map fun sys =>
      match (s.system.frames mv.thread).head? with
      | none => { s with system := sys }
      | some n => { s.setCall n (s.afterStep sys n) with system := sys }
  else none

/-! ### Steps of a call -/

/-- `await`: `verify_await_params`, then the coroutine is created. -/
def create (s : CvAwaits) (t n w : ℕ) (o : AwaitOverload) (executor : Bool) : Option CvAwaits :=
  if s.calls n = .none ∧ s.lender w = none ∧ (s.lock.wrapper w).any ScopedLock.lock then
    (s.system.step (.call t (.await w executor))).map fun sys =>
      if sys.pcs n = .outside then
        { (s.setCall n (.created o w)).lend w (some n) with
          system := sys
          tests := Function.update s.tests n [] }
      else { s with system := sys }
  else none

/-- The call is over: its caller has the scoped lock back. -/
def giveBack (s : CvAwaits) (n : ℕ) : Option CvAwaits :=
  (s.calls n).wrapper.map fun w => (s.setCall n .none).lend w none

/-- The lazy result is destroyed before it has started. -/
def drop (s : CvAwaits) (n : ℕ) : Option CvAwaits :=
  match s.calls n with
  | .created _ _ => s.giveBack n
  | _ => none

/-- `await_impl` without a predicate. -/
def coAwait (s : CvAwaits) (t n w : ℕ) (o : AwaitOverload) : Option CvAwaits :=
  (s.system.step (.call t (.coAwait w))).map fun sys =>
    { s.setCall n (.waiting o w) with system := sys }

/-- The lazy result is started. -/
def start (s : CvAwaits) (t n : ℕ) : Option CvAwaits :=
  match s.calls n with
  | .created .plain w => s.coAwait t n w .plain
  | .created .predicate w =>
      if s.system.UserCode n then some (s.setCall n (.testing w)) else none
  | _ => none

/-- The predicate returns or throws. -/
def test (s : CvAwaits) (t n : ℕ) (result : Option Bool) : Option CvAwaits :=
  match s.calls n with
  | .testing w =>
      if s.system.UserCode n then
        match result with
        | none => some (s.setCall n (.threw .predicate w .predicate))
        | some b =>
            let s' := { s with
              tests := Function.update s.tests n (s.tests n ++ [PredicateTest.mk (s.owns w) b]) }
            if b then some (s'.setCall n (.returned .predicate w)) else s'.coAwait t n w .predicate
      else none
  | _ => none

/-- The caller goes on behind its `co_await`. -/
def finish (s : CvAwaits) (n : ℕ) : Option CvAwaits :=
  if (s.calls n).completed then s.giveBack n else none

def ofTop (s : CvAwaits) (t : ℕ) (f : ℕ → Option CvAwaits) : Option CvAwaits :=
  (s.system.frames t).head?.bind f

def step (s : CvAwaits) : AwaitMove → Option CvAwaits
  | .system mv => s.systemStep mv
  | .create t w o executor => s.ofTop t fun n => s.create t n w o executor
  | .drop t => s.ofTop t fun n => s.drop n
  | .start t => s.ofTop t fun n => s.start t n
  | .test t result => s.ofTop t fun n => s.test t n result
  | .finish t => s.ofTop t fun n => s.finish n

def IsInitial (s : CvAwaits) : Prop := s = initial

def Reachable (s : CvAwaits) : Prop := Interleaving.Reachable step IsInitial s

end CvAwaits

end Concurrencpp
