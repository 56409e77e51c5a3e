import Concurrencpp.Interleaving

/-!
# The manual executor

`manual_executor`: a queue of tasks that runs only while somebody calls one of the loops.  Any
number of threads call it; a task that runs, or that is being destroyed, may call it again, so every
thread has a stack of calls.

* `LoopCall`, `WaitCall`: the public functions over `loop_impl`, `loop_until_impl` and the two forms
  of `wait_for_tasks_impl`, with what each of them hands to these.
* `ManualFrame`: a call that has not returned.
* `ManualSystem`: the executor and its threads.  A critical section of `m_lock` is one step, and so
  are the operations on `m_atomic_abort`, the call of a task and the destruction of a task.

A thread that waits on `m_condition` may wake up at any time and looks at the queue again; a
notification therefore changes nothing, and a wait is a critical section that is entered when its
predicate holds or, in the timed forms, when its deadline has passed (`ManualMove.timeout`).

An accepted task carries its number in the order of acceptance.  The numbers and the fields
`accepted`, `dequeued`, `executed`, `destroyed` and `returns` are records of the run.
-/

namespace Concurrencpp

/-! ### The public functions -/

/-- `loop`, `loop_once`, `loop_for`, `loop_once_for`, `loop_until` and `loop_once_until`. -/
inductive LoopCall
  | loop (maxCount : ℕ)
  | loopOnce
  | loopFor (maxCount : ℕ) (maxWaitingTime : ℤ)
  | loopOnceFor (maxWaitingTime : ℤ)
  | loopUntil (maxCount : ℕ)
  | loopOnceUntil
  deriving DecidableEq, Repr

namespace LoopCall

def maxCount : LoopCall → ℕ
  | .loop maxCount | .loopFor maxCount _ | .loopUntil maxCount => maxCount
  | .loopOnce | .loopOnceFor _ | .loopOnceUntil => 1

/-- The function is implemented by `loop_until_impl`, the others by `loop_impl`. -/
def waits : LoopCall → Bool
  | .loop _ | .loopOnce => false
  | .loopFor _ maxWaitingTime | .loopOnceFor maxWaitingTime => maxWaitingTime ≠ 0
  | .loopUntil _ | .loopOnceUntil => true

end LoopCall

/-- `wait_for_task`, `wait_for_tasks` and their timed forms. -/
inductive WaitCall
  | waitForTask
  | waitForTasks (count : ℕ)
  | waitForTaskFor
  | waitForTaskUntil
  | waitForTasksFor (count : ℕ)
  | waitForTasksUntil (count : ℕ)
  deriving DecidableEq, Repr

/-- What a wait returns. -/
inductive WaitValue
  | void
  | bool (b : Bool)
  | size (n : ℕ)
  deriving DecidableEq, Repr

namespace WaitCall

def count : WaitCall → ℕ
  | .waitForTask | .waitForTaskFor | .waitForTaskUntil => 1
  | .waitForTasks count | .waitForTasksFor count | .waitForTasksUntil count => count

/-- The function has a deadline. -/
def timed : WaitCall → Bool
  | .waitForTask | .waitForTasks _ => false
  | .waitForTaskFor | .waitForTaskUntil | .waitForTasksFor _ | .waitForTasksUntil _ => true

/-- What the function makes of `m_tasks.size()`. -/
def value (call : WaitCall) (size : ℕ) : WaitValue :=
  match call with
  | .waitForTask | .waitForTasks _ => .void
  | .waitForTaskFor | .waitForTaskUntil => .bool (size = 1)
  | .waitForTasksFor _ | .waitForTasksUntil _ => .size size

end WaitCall

/-! ### Calls on their way -/

/-- Where a thread is inside `loop_impl` or `loop_until_impl`: at the head of the loop, before the
critical section of either, with a task that it has taken out, inside this task, or behind the
loop. -/
inductive LoopPc (τ : Type)
  | head
  | lock
  | wait
  | invoke (task : τ × ℕ)
  | running
  | exit

/-- A call of a loop; `executed` is the variable of the source.  `ran` and `sawEmpty` record the
tasks that the call has invoked and whether it has found the queue empty. -/
structure LoopFrame (τ : Type) where
  call : LoopCall
  executed : ℕ
  pc : LoopPc τ
  ran : List (τ × ℕ)
  sawEmpty : Bool

namespace LoopFrame

variable {τ : Type}

def goto (f : LoopFrame τ) (pc : LoopPc τ) : LoopFrame τ := { f with pc := pc }

/-- The call at its beginning. -/
def start (call : LoopCall) : LoopFrame τ where
  call := call
  executed := 0
  pc := .head
  ran := []
  sawEmpty := false

end LoopFrame

/-- A call that has not returned.  `clear` has the size that it will return, what it has removed and
what of it is still to be destroyed; `shutdown` is behind the exchange on `m_atomic_abort`, and
`shutdownClear` behind its critical section. -/
inductive ManualFrame (τ : Type)
  | loop (f : LoopFrame τ)
  | wait (call : WaitCall)
  | clear (size : ℕ) (removed rest : List (τ × ℕ))
  | shutdown
  | shutdownClear (rest : List (τ × ℕ))

/-- How a call has ended.  The `shutdown` that `first` marks is the one that found `m_atomic_abort`
unset. -/
inductive ManualReturn (τ : Type)
  | looped (call : LoopCall) (value : ℕ) (ran : List (τ × ℕ)) (sawEmpty : Bool)
  | waited (call : WaitCall) (value : WaitValue)
  | cleared (value : ℕ) (removed : List (τ × ℕ))
  | shutDown (first : Bool)
  | threw
  deriving DecidableEq

/-- `manual_executor` and the threads that call it. -/
structure ManualSystem (τ : Type) where
  tasks : List (τ × ℕ)
  abort : Bool
  atomicAbort : Bool
  frames : ℕ → List (ManualFrame τ)
  accepted : List τ
  dequeued : List (τ × ℕ)
  executed : List (τ × ℕ)
  destroyed : List (τ × ℕ)
  returns : List (ManualReturn τ)

/-- A call by the thread `t`, the next step of the call that it is in, the deadline of this call,
and an exception out of the task that it runs. -/
inductive ManualMove (τ : Type)
  | enqueue (t : ℕ) (tasks : List τ)
  | loop (t : ℕ) (call : LoopCall)
  | wait (t : ℕ) (call : WaitCall)
  | clear (t : ℕ)
  | shutdown (t : ℕ)
  | step (t : ℕ)
  | timeout (t : ℕ)
  | throw (t : ℕ)

namespace ManualSystem

variable {τ : Type}

/-- A new executor. -/
def initial : ManualSystem τ where
  tasks := []
  abort := false
  atomicAbort := false
  frames := fun _ => []
  accepted := []
  dequeued := []
  executed := []
  destroyed := []
  returns := []

def setStack (s : ManualSystem τ) (t : ℕ) (stack : List (ManualFrame τ)) : ManualSystem τ :=
  { s with frames := Function.update s.frames t stack }

/-- The thread is back in `below`, and its call has ended with `r`. -/
def finish (s : ManualSystem τ) (t : ℕ) (below : List (ManualFrame τ)) (r : ManualReturn τ) :
    ManualSystem τ :=
  { s.setStack t below with returns := s.returns ++ [r] }

/-- The whole of `m_tasks` is moved out. -/
def moveTasks (s : ManualSystem τ) : ManualSystem τ :=
  { s with
    tasks := []
    dequeued := s.dequeued ++ s.tasks }

/-- A task is destroyed without a call. -/
def destroy (s : ManualSystem τ) (task : τ × ℕ) : ManualSystem τ :=
  { s with destroyed := s.destroyed ++ [task] }

/-- `enqueue`; the exception of an aborted executor changes nothing. -/
def enqueue (s : ManualSystem τ) (tasks : List τ) : ManualSystem τ :=
  if s.abort then s
  else { s with
    tasks := s.tasks ++ tasks.zipIdx s.accepted.length
    accepted := s.accepted ++ tasks }

/-- `loop_impl` and `loop_until_impl` up to the loop. -/
def loop (s : ManualSystem τ) (t : ℕ) (call : LoopCall) : ManualSystem τ :=
  if call.maxCount = 0 then s.finish t (s.frames t) (.looped call 0 [] false)
  else s.setStack t (.loop (.start call) :: s.frames t)

/-- The critical section of a loop, from the look at `m_abort` on. -/
def takeTask (s : ManualSystem τ) (t : ℕ) (below : List (ManualFrame τ)) (f : LoopFrame τ) :
    ManualSystem τ :=
  if s.abort then s.setStack t (.loop (f.goto .exit) :: below)
  else
    match s.tasks with
    | [] => s.setStack t (.loop { f.goto .exit with sawEmpty := true } :: below)
    | task :: tasks =>
        { s with
          tasks := tasks
          dequeued := s.dequeued ++ [task] }.setStack t (.loop (f.goto (.invoke task)) :: below)

/-- The next step of a loop. -/
def loopStep (s : ManualSystem τ) (t : ℕ) (below : List (ManualFrame τ)) (f : LoopFrame τ) :
    Option (ManualSystem τ) :=
  match f.pc with
  | .head =>
      if f.executed = f.call.maxCount then some (s.setStack t (.loop (f.goto .exit) :: below))
      else some (s.setStack t (.loop (f.goto (if f.call.waits then .wait else .lock)) :: below))
  | .lock => some (s.takeTask t below f)
  -- the predicate of `wait_until`
  | .wait => if s.tasks ≠ [] ∨ s.abort = true then some (s.takeTask t below f) else none
  | .invoke task =>
      some ({ s with executed := s.executed ++ [task] }.setStack t
        (.loop { f.goto .running with ran := f.ran ++ [task] } :: below))
  | .running =>
      some (s.setStack t (.loop { f.goto .head with executed := f.executed + 1 } :: below))
  -- `shutdown_requested`
  | .exit =>
      if s.atomicAbort then some (s.finish t below .threw)
      else some (s.finish t below (.looped f.call f.executed f.ran f.sawEmpty))

/-- The deadline of `loop_until_impl` has passed, at the head of the loop or in the wait. -/
def loopTimeout (s : ManualSystem τ) (t : ℕ) (below : List (ManualFrame τ)) (f : LoopFrame τ) :
    Option (ManualSystem τ) :=
  match f.pc with
  | .head => if f.call.waits then some (s.setStack t (.loop (f.goto .exit) :: below)) else none
  | .wait => some (s.takeTask t below f)
  | _ => none

/-- The end of `wait_for_tasks_impl`. -/
def waitReturn (s : ManualSystem τ) (t : ℕ) (below : List (ManualFrame τ)) (call : WaitCall) :
    ManualSystem τ :=
  if s.abort then s.finish t below .threw
  else s.finish t below (.waited call (call.value s.tasks.length))

/-- `wait_for_tasks_impl`.  The form without a deadline does not take the lock for no tasks at
all. -/
def waitStep (s : ManualSystem τ) (t : ℕ) (below : List (ManualFrame τ)) (call : WaitCall) :
    Option (ManualSystem τ) :=
  if call.timed = false ∧ call.count = 0 then
    if s.atomicAbort then some (s.finish t below .threw)
    else some (s.finish t below (.waited call .void))
  else if call.count ≤ s.tasks.length ∨ s.abort = true then some (s.waitReturn t below call)
  else none

/-- `clear`, up to the end of its critical section. -/
def clear (s : ManualSystem τ) (t : ℕ) : ManualSystem τ :=
  if s.abort then s.finish t (s.frames t) .threw
  else s.moveTasks.setStack t (.clear s.tasks.length s.tasks s.tasks :: s.frames t)

/-- `shutdown`, up to the exchange on `m_atomic_abort`. -/
def shutdown (s : ManualSystem τ) (t : ℕ) : ManualSystem τ :=
  if s.atomicAbort then s.finish t (s.frames t) (.shutDown false)
  else { s with atomicAbort := true }.setStack t (.shutdown :: s.frames t)

/-- The next step of the innermost call of a thread. -/
def frameStep (s : ManualSystem τ) (t : ℕ) : Option (ManualSystem τ) :=
  match s.frames t with
  | [] => none
  | .loop f :: below => s.loopStep t below f
  | .wait call :: below => s.waitStep t below call
  | .clear size removed (task :: rest) :: below =>
      some ((s.destroy task).setStack t (.clear size removed rest :: below))
  | .clear size removed [] :: below => some (s.finish t below (.cleared size removed))
  -- the critical section
  | .shutdown :: below =>
      some ({ s.moveTasks with abort := true }.setStack t (.shutdownClear s.tasks :: below))
  | .shutdownClear (task :: rest) :: below =>
      some ((s.destroy task).setStack t (.shutdownClear rest :: below))
  | .shutdownClear [] :: below => some (s.finish t below (.shutDown true))

/-- The deadline of the innermost call of a thread has passed. -/
def frameTimeout (s : ManualSystem τ) (t : ℕ) : Option (ManualSystem τ) :=
  match s.frames t with
  | .loop f :: below => s.loopTimeout t below f
  | .wait call :: below => if call.timed then some (s.waitReturn t below call) else none
  | _ => none

/-- An exception leaves the task that a thread runs, and with it the loop. -/
def frameThrow (s : ManualSystem τ) (t : ℕ) : Option (ManualSystem τ) :=
  match s.frames t with
  | .loop f :: below =>
      match f.pc with
      | .running => some (s.finish t below .threw)
      | _ => none
  | _ => none

/-- A thread calls the executor from outside, from a task that it runs, or from the destructor of a
task. -/
def mayCall (s : ManualSystem τ) (t : ℕ) : Bool :=
  match s.frames t with
  | [] | .clear _ _ _ :: _ | .shutdownClear _ :: _ => true
  | .loop f :: _ =>
      match f.pc with
      | .running => true
      | _ => false
  | .wait _ :: _ | .shutdown :: _ => false

/-- One step. -/
def step (s : ManualSystem τ) : ManualMove τ → Option (ManualSystem τ)
  | .enqueue t tasks => if s.mayCall t then some (s.enqueue tasks) else none
  | .loop t call => if s.mayCall t then some (s.loop t call) else none
  | .wait t call => if s.mayCall t then some (s.setStack t (.wait call :: s.frames t)) else none
  | .clear t => if s.mayCall t then some (s.clear t) else none
  | .shutdown t => if s.mayCall t then some (s.shutdown t) else none
  | .step t => s.frameStep t
  | .timeout t => s.frameTimeout t
  | .throw t => s.frameThrow t

def IsInitial (s : ManualSystem τ) : Prop := s = initial

/-- The states that some interleaving reaches. -/
def Reachable : ManualSystem τ → Prop := Interleaving.Reachable step IsInitial

end ManualSystem
end Concurrencpp
