import Concurrencpp.Interleaving
import Concurrencpp.Slist

/-!
# The asynchronous lock

One `async_lock`, the `scoped_async_lock`s that wrap it, and any number of tasks that call the
functions of both.

* A task locks `m_awaiter_lock` in one step and runs the critical section behind it, with the
  unlock, in the next; what follows is a step of its own.
* `retry` puts the popped coroutine back at the head of the loop of `lock_impl`.  From then on it is
  a party of its own, so a locker that runs inside `retry` may do everything that it may do on
  another thread.
* The resume executor of `lock_impl` stores the task (`post`) and later runs it (`run`) or drops it
  (`drop`), or throws out of `post` (`throw`); an executor that runs the task inside `post` is
  `post` and `run` in a row.
* `ScopedLock.lock` says whether `m_lock` is this lock or null.  Of a wrapper of another lock only
  swaps and moves would reach this one, as those of a null wrapper do.

`raw` counts the grants that lie in no wrapper: those of a successful `async_lock::try_lock` and of
`release`, and those of a `lock` or `try_lock` on a wrapper that has lost its pointer in the
meantime.  `async_lock::unlock` and the adopting constructor are for the owner of such a grant.  A
call of `async_lock::unlock` without one is no step, so that its exception for a lock that is not
locked is not reached by it.  `releasing` names the task whose `unlock` or destructor is at work on
a wrapper.

`codeStep` has all steps of the code.  While `scoped_async_lock::unlock` or the destructor is at
work on a wrapper, lockers are resumed inside it, and nothing in the code keeps them or another
thread off this wrapper.  `step` has the steps of tasks that do keep off it (`Undisturbed`).
-/

namespace Concurrencpp

/-- The exceptions of both classes; `brokenTask` is that of `resume_on`. -/
inductive LockError
  | nullResumeExecutor
  | unlockInvalidLock
  | scopedNullResumeExecutor
  | scopedLockDeadlock
  | scopedLockNoMutex
  | scopedTryLockDeadlock
  | scopedTryLockNoMutex
  | scopedUnlockInvalidLock
  | brokenTask
  deriving DecidableEq, Repr

/-- Who has called `lock_impl` or `async_lock::try_lock`: the user, or the function of the same name
of a wrapper. -/
inductive LockCaller
  | direct
  | ofScoped (w : ℕ)
  deriving DecidableEq, Repr

/-- Who has called `async_lock::unlock`. -/
inductive Unlocker
  | direct
  | ofScoped (w : ℕ)
  | ofDestructor (w : ℕ)
  deriving DecidableEq, Repr

/-- Where a task is.  `first` is `resume_synchronously`; at `attempt`, `giveBack`, `tryAttempt` and
`unlocking` the task holds `m_awaiter_lock`. -/
inductive LockPc
  | idle
  | loop (c : LockCaller) (first : Bool)
  | attempt (c : LockCaller) (first : Bool)
  | suspended (c : LockCaller)
  | resumeOn (c : LockCaller)
  | posted (c : LockCaller)
  | broken
  | giveBack
  | rethrow (awaiter : Option ℕ)
  | granted (c : LockCaller)
  | tryLock (c : LockCaller)
  | tryAttempt (c : LockCaller)
  | tried (c : LockCaller) (res : Bool)
  | unlock (u : Unlocker)
  | unlocking (u : Unlocker)
  | retry (u : Unlocker) (awaiter : Option ℕ)
  | unlocked (u : Unlocker)
  | threw (e : LockError)
  deriving DecidableEq, Repr

/-- `scoped_async_lock`. -/
structure ScopedLock where
  lock : Bool
  owns : Bool
  deriving DecidableEq, Repr

/-- The lock, its awaiters, the tasks and the wrappers. -/
structure AsyncLock where
  awaiterLock : Option ℕ
  awaiters : Slist ℕ
  next : ℕ → Option ℕ
  locked : Bool
  pcs : ℕ → LockPc
  wrappers : ℕ → Option ScopedLock
  releasing : ℕ → Option ℕ
  raw : ℕ

/-- What a task does next: a call (`executor` says whether the given executor is not null), a
constructor, a move, a swap or a release of wrappers, its next step, what the resume executor does
with it, and the return of the guard of `async_lock::lock` into a new wrapper. -/
inductive LockAction
  | lock (executor : Bool)
  | tryLock
  | unlock
  | scopedLock (w : ℕ) (executor : Bool)
  | scopedTryLock (w : ℕ)
  | scopedUnlock (w : ℕ)
  | destroy (w : ℕ)
  | construct (w : ℕ)
  | deferLock (w : ℕ)
  | adoptLock (w : ℕ)
  | move (w w' : ℕ)
  | swap (w w' : ℕ)
  | release (w : ℕ)
  | advance
  | finish (w : ℕ)
  | post
  | throw
  | run
  | drop
  deriving DecidableEq, Repr

/-- The wrappers that an action gets. -/
def LockAction.wrappers : LockAction → List ℕ
  | .scopedLock w _ | .scopedTryLock w | .scopedUnlock w | .destroy w | .construct w | .deferLock w
  | .adoptLock w | .release w | .finish w => [w]
  | .move w w' | .swap w w' => [w, w']
  | _ => []

/-- The wrapper whose `m_owns` the next step of the task sets, behind a `lock` or `try_lock` on
it. -/
def LockPc.stores : LockPc → Option ℕ
  | .granted (.ofScoped w) | .tried (.ofScoped w) _ => some w
  | _ => none

namespace AsyncLock

/-- An unlocked lock that nobody uses. -/
def initial : AsyncLock where
  awaiterLock := none
  awaiters := .empty
  next := fun _ => none
  locked := false
  pcs := fun _ => .idle
  wrappers := fun _ => none
  releasing := fun _ => none
  raw := 0

def setPc (s : AsyncLock) (n : ℕ) (pc : LockPc) : AsyncLock :=
  { s with pcs := Function.update s.pcs n pc }

def setWrapper (s : AsyncLock) (w : ℕ) (x : Option ScopedLock) : AsyncLock :=
  { s with wrappers := Function.update s.wrappers w x }

def setReleasing (s : AsyncLock) (w : ℕ) (n : Option ℕ) : AsyncLock :=
  { s with releasing := Function.update s.releasing w n }

def addRaw (s : AsyncLock) (b : Bool) : AsyncLock := { s with raw := s.raw + b.toNat }

/-- The wrapper, if there is one and no `unlock` or destructor is at work on it. -/
def wrapper (s : AsyncLock) (w : ℕ) : Option ScopedLock :=
  match s.releasing w with
  | none => s.wrappers w
  | some _ => none

/-- There is no wrapper at this address, nor is a function of a former one still at work there. -/
def vacant (s : AsyncLock) (w : ℕ) : Prop := s.wrappers w = none ∧ s.releasing w = none

instance (s : AsyncLock) (w : ℕ) : Decidable (s.vacant w) :=
  inferInstanceAs (Decidable (_ ∧ _))

/-- `unlock` or the destructor is no longer at work on the wrapper. -/
def endRelease (s : AsyncLock) : Unlocker → AsyncLock
  | .direct => s
  | .ofScoped w | .ofDestructor w => s.setReleasing w none

/-! ### The critical sections of `async_lock` -/

/-- `std::unique_lock<std::mutex> lock(m_awaiter_lock)`. -/
def lockMutex (s : AsyncLock) (n : ℕ) (pc : LockPc) : Option AsyncLock :=
  match s.awaiterLock with
  | none => some { s.setPc n pc with awaiterLock := some n }
  | some _ => none

/-- A round of the loop of `lock_impl`: the task has locked the lock, or a new awaiter of it is
queued and it is suspended. -/
def attempt (s : AsyncLock) (n : ℕ) (c : LockCaller) (first : Bool) : AsyncLock :=
  match s.locked with
  | false => { s.setPc n (if first then .granted c else .resumeOn c) with
      awaiterLock := none
      locked := true }
  | true =>
      let p := s.awaiters.pushBack (Function.update s.next n none) n
      { s.setPc n (.suspended c) with
        awaiterLock := none
        awaiters := p.1
        next := p.2 }

/-- `m_locked = false`, the first awaiter is popped and `m_awaiter_lock` unlocked. -/
def handOver (s : AsyncLock) (n : ℕ) (pc : Option ℕ → LockPc) : AsyncLock :=
  let p := s.awaiters.popFront s.next
  { s.setPc n (pc p.1) with
    awaiterLock := none
    locked := false
    awaiters := p.2 }

/-- The critical section of `try_lock`. -/
def tryAttempt (s : AsyncLock) (n : ℕ) (c : LockCaller) : AsyncLock :=
  { s.setPc n (.tried c !s.locked) with
    awaiterLock := none
    locked := true }

/-- The critical section of `unlock`. -/
def unlocking (s : AsyncLock) (n : ℕ) (u : Unlocker) : AsyncLock :=
  match s.locked with
  | true => s.handOver n (.retry u)
  | false => { (s.setPc n (.threw .unlockInvalidLock)).endRelease u with awaiterLock := none }

/-- `async_lock_awaiter::retry`: the coroutine goes on behind its `co_await`. -/
def resume (s : AsyncLock) (m : ℕ) : Option AsyncLock :=
  match s.pcs m with
  | .suspended c => some (s.setPc m (.loop c false))
  | _ => none

/-! ### `scoped_async_lock` -/

/-- `m_owns = b` behind a `lock` or `try_lock` on the wrapper, which has got a grant or not.  A
grant whose wrapper has no pointer, and one that is overwritten, is left without a wrapper. -/
def setOwns (s : AsyncLock) (w : ℕ) (b : Bool) : AsyncLock :=
  match s.wrappers w with
  | none => s.addRaw b
  | some x => (s.setWrapper w (some { x with owns := b })).addRaw
      (if x.lock then x.owns && !b else b)

/-- The checks of `scoped_async_lock::lock`. -/
def scopedLock (x : ScopedLock) (w : ℕ) (executor : Bool) : LockPc :=
  if !executor then .threw .scopedNullResumeExecutor
  else if !x.lock then .threw .scopedLockNoMutex
  else if x.owns then .threw .scopedLockDeadlock
  else .loop (.ofScoped w) true

/-- The checks of `scoped_async_lock::try_lock`. -/
def scopedTryLock (x : ScopedLock) (w : ℕ) : LockPc :=
  if !x.lock then .threw .scopedTryLockNoMutex
  else if x.owns then .threw .scopedTryLockDeadlock
  else .tryLock (.ofScoped w)

/-- `scoped_async_lock::unlock`, up to the call of `async_lock::unlock`. -/
def scopedUnlock (s : AsyncLock) (n w : ℕ) (x : ScopedLock) : AsyncLock :=
  if !x.owns then s.setPc n (.threw .scopedUnlockInvalidLock)
  else if x.lock then (s.setPc n (.unlock (.ofScoped w))).setReleasing w (some n)
  else s

/-- The destructor, up to the call of `async_lock::unlock`. -/
def destroy (s : AsyncLock) (n w : ℕ) (x : ScopedLock) : AsyncLock :=
  if x.owns && x.lock then (s.setPc n (.unlock (.ofDestructor w))).setReleasing w (some n)
  else s.setWrapper w none

/-- What the caller of `async_lock::unlock` does behind it. -/
def unlocked (s : AsyncLock) (n : ℕ) : Unlocker → AsyncLock
  | .direct => s.setPc n .idle
  | .ofScoped w => ((s.setPc n .idle).setWrapper w
      ((s.wrappers w).map fun x => { x with owns := false })).endRelease (.ofScoped w)
  | .ofDestructor w => ((s.setPc n .idle).setWrapper w none).endRelease (.ofDestructor w)

/-! ### Steps -/

/-- A task in user code calls a function of the lock or of a wrapper. -/
def call (s : AsyncLock) (n : ℕ) : LockAction → Option AsyncLock
  | .lock executor =>
      some (s.setPc n (if executor then .loop .direct true else .threw .nullResumeExecutor))
  | .tryLock => some (s.setPc n (.tryLock .direct))
  | .unlock =>
      if 0 < s.raw then some { s.setPc n (.unlock .direct) with raw := s.raw - 1 } else none
  | .scopedLock w executor => (s.wrappers w).map fun x => s.setPc n (scopedLock x w executor)
  | .scopedTryLock w => (s.wrappers w).map fun x => s.setPc n (scopedTryLock x w)
  | .scopedUnlock w => (s.wrappers w).map fun x => s.scopedUnlock n w x
  | .destroy w => (s.wrappers w).map fun x => s.destroy n w x
  | .construct w => if s.vacant w then some (s.setWrapper w (some ⟨false, false⟩)) else none
  | .deferLock w => if s.vacant w then some (s.setWrapper w (some ⟨true, false⟩)) else none
  | .adoptLock w =>
      if s.vacant w ∧ 0 < s.raw then
        some { s.setWrapper w (some ⟨true, true⟩) with raw := s.raw - 1 }
      else none
  | .move w w' =>
      if s.vacant w' then
        (s.wrappers w).map fun x => (s.setWrapper w (some ⟨false, false⟩)).setWrapper w' (some x)
      else none
  | .swap w w' =>
      (s.wrappers w).bind fun x => (s.wrappers w').map fun y =>
        (s.setWrapper w (some y)).setWrapper w' (some x)
  | .release w =>
      (s.wrappers w).map fun x =>
        (s.setWrapper w (some ⟨false, false⟩)).addRaw (x.owns && x.lock)
  | _ => none

/-- The next step of a task inside a function of the lock or of a wrapper. -/
def advance (s : AsyncLock) (n : ℕ) : Option AsyncLock :=
  match s.pcs n with
  | .idle | .suspended _ | .resumeOn _ | .posted _ | .granted .direct => none
  | .loop c first => s.lockMutex n (.attempt c first)
  | .attempt c first => some (s.attempt n c first)
  | .broken => s.lockMutex n .giveBack
  | .giveBack => some (s.handOver n .rethrow)
  | .rethrow (some m) => (s.setPc n (.rethrow none)).resume m
  | .rethrow none => some (s.setPc n (.threw .brokenTask))
  | .granted (.ofScoped w) => some ((s.setPc n .idle).setOwns w true)
  | .tryLock c => s.lockMutex n (.tryAttempt c)
  | .tryAttempt c => some (s.tryAttempt n c)
  | .tried .direct res => some ((s.setPc n .idle).addRaw res)
  | .tried (.ofScoped w) res => some ((s.setPc n .idle).setOwns w res)
  | .unlock u => s.lockMutex n (.unlocking u)
  | .unlocking u => some (s.unlocking n u)
  | .retry u (some m) => (s.setPc n (.unlocked u)).resume m
  | .retry u none => some (s.setPc n (.unlocked u))
  | .unlocked u => some (s.unlocked n u)
  | .threw _ => some (s.setPc n .idle)

/-- `co_return scoped_async_lock(*this, std::adopt_lock)`. -/
def finish (s : AsyncLock) (n w : ℕ) : Option AsyncLock :=
  match s.pcs n with
  | .granted .direct =>
      if s.vacant w then some ((s.setPc n .idle).setWrapper w (some ⟨true, true⟩)) else none
  | _ => none

/-- `co_await resume_on(resume_executor)`: the executor takes the task, or `post` throws. -/
def post (s : AsyncLock) (n : ℕ) (ok : Bool) : Option AsyncLock :=
  match s.pcs n with
  | .resumeOn c => some (s.setPc n (if ok then .posted c else .broken))
  | _ => none

/-- The executor runs the task, or destroys it, which resumes the coroutine with an interrupt. -/
def execute (s : AsyncLock) (n : ℕ) (invoked : Bool) : Option AsyncLock :=
  match s.pcs n with
  | .posted c => some (s.setPc n (if invoked then .granted c else .broken))
  | _ => none

/-- One step of the code. -/
def codeStep (s : AsyncLock) (m : ℕ × LockAction) : Option AsyncLock :=
  match m.2 with
  | .advance => s.advance m.1
  | .finish w => s.finish m.1 w
  | .post => s.post m.1 true
  | .throw => s.post m.1 false
  | .run => s.execute m.1 true
  | .drop => s.execute m.1 false
  | a => if s.pcs m.1 = .idle then s.call m.1 a else none

/-- The step touches no wrapper that an `unlock` or a destructor is at work on. -/
def Undisturbed (s : AsyncLock) (m : ℕ × LockAction) : Prop :=
  ∀ w ∈ m.2.wrappers ++ (s.pcs m.1).stores.toList, s.releasing w = none

instance (s : AsyncLock) (m : ℕ × LockAction) : Decidable (s.Undisturbed m) :=
  inferInstanceAs (Decidable (∀ w ∈ _, _))

/-- A step of tasks that keep off the wrappers that are being unlocked. -/
def step : AsyncLock → ℕ × LockAction → Option AsyncLock :=
  Interleaving.restrict codeStep Undisturbed

def IsInitial (s : AsyncLock) : Prop := s = initial

def Reachable (s : AsyncLock) : Prop := Interleaving.Reachable step IsInitial s

end AsyncLock
end Concurrencpp
