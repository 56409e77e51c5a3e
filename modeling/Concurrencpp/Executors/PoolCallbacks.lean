import Concurrencpp.Executors.PoolAssertions
import Concurrencpp.Executors.TaskConservation

/-!
# The terminated callbacks of the workers

`details::thread` calls `thread_terminated_callback` behind `work_loop`, on the thread that has left
it.  This thread has set `m_idle`, so that its worker can be started again while the callback runs;
but its thread-local `this_worker` is still set.  An `enqueue` of the callback, on any pool, can
come to `enqueue_local` of this worker, which locks nothing.

* A thread that has left `work_loop` goes on under the name of a foreign thread, of which there are
  any number; when it calls `shutdown` it is nothing else.  `Leaver` is what it has beyond that.
* `PoolCallbacks`: the pools with their record, the callbacks that are running and the threads that
  are to be joined.  The record has the tasks of all calls but those of callbacks.
* `PoolCallbacks.localStep`: `enqueue_local` by a leaver, with a step between its check and its
  push.
* `PoolCallbacks.Quiet`: no callback calls `enqueue`.  A run of such steps is a run of the pools
  alone (`PoolCallbacks.reach_ledger`).
-/

namespace Concurrencpp

open Interleaving
open Function (update)

/-- A thread that runs the callback: its `this_worker`, its call of `enqueue`, and whether it is
behind the check of `m_atomic_abort` in `enqueue_local`. -/
structure Leaver (P τ : Type) where
  thisWorker : P × ℕ
  call : Call P τ
  checked : Bool

namespace Leaver

variable {P τ : Type}

/-- The callback is not inside `enqueue`. -/
def free (x : Leaver P τ) : Bool :=
  match x.call with
  | .outside => true
  | _ => false

/-- The thread of the worker, which reads the same thread-local data. -/
def thread (x : Leaver P τ) : Thread P := .worker x.thisWorker.1 x.thisWorker.2

end Leaver

/-- All pools with their callbacks.  `current p i`: the `m_thread` of the worker, where it runs the
callback; `stale t`: the `stale_worker` that the thread `t` has taken from a worker that it has
started again. -/
structure PoolCallbacks (P τ : Type) where
  ledger : TaskLedger P τ
  leavers : Thread P → Option (Leaver P τ)
  current : P → ℕ → Option (Thread P)
  stale : Thread P → Option (Thread P)

/-- A step of the pools; a worker's thread leaves `work_loop` and is `t` from then on; a callback
calls `enqueue`, takes the next step of this call, and returns. -/
inductive CallbackMove (P τ : Type)
  | pool (m : PoolMove P τ)
  | leave (p : P) (i : ℕ) (t : Thread P)
  | enqueue (t : Thread P) (p : P) (task : Option τ)
  | enqueueSpan (t : Thread P) (p : P) (tasks : List (Option τ))
  | call (t : Thread P)
  | finish (t : Thread P)

namespace PoolCallbacks

variable {P τ : Type} [DecidableEq P] [DecidableEq τ]

/-- New pools. -/
def initial (size : P → ℕ) : PoolCallbacks P τ where
  ledger := .initial size
  leavers := fun _ => none
  current := fun _ _ => none
  stale := fun _ => none

def system (s : PoolCallbacks P τ) : ThreadPools P τ := s.ledger.system

def setLeaver (s : PoolCallbacks P τ) (t : Thread P) (x : Option (Leaver P τ)) :
    PoolCallbacks P τ :=
  { s with leavers := update s.leavers t x }

/-- The thread that is to be joined has ended. -/
def ended (s : PoolCallbacks P τ) (t : Option (Thread P)) : Bool :=
  t.all fun t => (s.leavers t).isNone

/-- The step is none of a callback's `enqueue`, and the thread that it joins has ended. -/
def admits (s : PoolCallbacks P τ) : PoolMove P τ → Bool
  | .worker p i =>
      match (s.system.pools p).inner i with
      | .donated _ .join _ _ => s.ended (s.stale (.worker p i))
      | _ => true
  | .call t =>
      match s.system.calls t with
      | .enqueued _ _ .join _ => s.ended (s.stale t)
      | .shutdown p i .join => s.ended (s.current p i)
      | _ => true
  | .enqueue t _ _ | .enqueueSpan t _ _ => (s.leavers t).isNone
  | .shutdown t _ => (s.leavers t).all Leaver.free
  | .timeout _ _ | .throw _ _ | .joinThrows _ => true

/-- `stale_worker = std::move(m_thread)`, where the step to `l` has started a new thread of the
worker. -/
def handOver (s : PoolCallbacks P τ) (l : TaskLedger P τ) (t : Thread P) (p : P) (i : ℕ) :
    PoolCallbacks P τ :=
  if (s.system.worker p i).pc = .stopped ∧ (l.system.worker p i).pc ≠ .stopped then
    { s with
      ledger := l
      current := update s.current p (update (s.current p) i none)
      stale := update s.stale t (s.current p i) }
  else { s with ledger := l }

/-- A step of the pools has led to `l`. -/
def record (s : PoolCallbacks P τ) (m : PoolMove P τ) (l : TaskLedger P τ) : PoolCallbacks P τ :=
  match m with
  | .worker p i =>
      match (s.system.pools p).inner i with
      | .donate (target :: _) _ => s.handOver l (.worker p i) p target
      | _ => { s with ledger := l }
  | .call t =>
      match s.system.calls t with
      | .enqueueForeign p index _ _ => s.handOver l t p index
      | _ => { s with ledger := l }
  | _ => { s with ledger := l }

/-- The thread of the worker leaves `work_loop`, and runs the callback as `t`. -/
def leave (s : PoolCallbacks P τ) (p : P) (i : ℕ) (t : Thread P) : Option (PoolCallbacks P τ) :=
  if t.thisWorker = none ∧ (s.leavers t).isNone ∧ s.system.mayCall t ∧
      (s.system.worker p i).pc ≠ .stopped then
    (s.ledger.step (.worker p i)).bind fun l =>
      if (l.system.worker p i).pc = .stopped then
        let current := update s.current p (update (s.current p) i (some t))
        some ({ s with ledger := l, current := current }.setLeaver t
          (some ⟨(p, i), .outside, false⟩))
      else none
  else none

/-- The callback makes a call of `enqueue`. -/
def enter (s : PoolCallbacks P τ) (t : Thread P) (call : Thread P → Option (Call P τ)) :
    Option (PoolCallbacks P τ) :=
  (s.leavers t).bind fun x =>
    if x.free ∧ s.system.mayCall t then
      (call x.thread).map fun c => s.setLeaver t (some { x with call := c })
    else none

/-- `enqueue_local` on the worker that the thread has left; an exception ends the call. -/
def localStep (s : PoolCallbacks P τ) (t : Thread P) (x : Leaver P τ) (p : P)
    (tasks : List (Option τ)) : PoolCallbacks P τ :=
  let w := s.system.worker x.thisWorker.1 x.thisWorker.2
  if x.checked then
    let v := s.system.setWorker x.thisWorker.1 x.thisWorker.2
      { w with privateQueue := w.privateQueue ++ ThreadPools.given p tasks }
    { s with ledger := { s.ledger with system := v } }.setLeaver t
      (some { x with call := .outside, checked := false })
  else if w.atomicAbort then s.setLeaver t (some { x with call := .outside })
  else s.setLeaver t (some { x with checked := true })

/-- Any other step of `enqueue` is that of a thread with the same `this_worker`. -/
def foreignStep (s : PoolCallbacks P τ) (t : Thread P) (x : Leaver P τ) :
    Option (PoolCallbacks P τ) :=
  ((s.system.setCall x.thread x.call).callStep x.thread).map fun v =>
    let l := { s.ledger with system := v.setCall x.thread (s.system.calls x.thread) }
    let s := match x.call with
      | .enqueueForeign p index _ _ => s.handOver l t p index
      | _ => { s with ledger := l }
    s.setLeaver t (some { x with call := v.calls x.thread })

/-- The next step of a callback's call of `enqueue`. -/
def callStep (s : PoolCallbacks P τ) (t : Thread P) : Option (PoolCallbacks P τ) :=
  (s.leavers t).bind fun x =>
    match x.call with
    | .outside => none
    | .enqueueLocal p tasks => some (s.localStep t x p tasks)
    | .enqueued _ _ .join _ =>
        -- a thread that has started its own worker again joins itself
        if s.stale t = some t then some (s.setLeaver t (some { x with call := .outside }))
        else if s.ended (s.stale t) then s.foreignStep t x else none
    | _ => s.foreignStep t x

/-- The callback returns, and its thread ends. -/
def finish (s : PoolCallbacks P τ) (t : Thread P) : Option (PoolCallbacks P τ) :=
  if (s.leavers t).any Leaver.free ∧ s.system.mayCall t then some (s.setLeaver t none) else none

/-- One step. -/
def step (s : PoolCallbacks P τ) : CallbackMove P τ → Option (PoolCallbacks P τ)
  | .pool m => if s.admits m then (s.ledger.step m).map (s.record m) else none
  | .leave p i t => s.leave p i t
  | .enqueue t p task => s.enter t fun t => some (s.system.enqueue t p task)
  | .enqueueSpan t p tasks => s.enter t fun t => s.system.enqueueSpan t p tasks
  | .call t => s.callStep t
  | .finish t => s.finish t

def IsInitial (s : PoolCallbacks P τ) : Prop := ∃ size, s = initial size

/-- No callback calls `enqueue`, and the steps of the pools meet `cond`. -/
def Quiet (cond : TaskLedger P τ → PoolMove P τ → Prop) (s : PoolCallbacks P τ) :
    CallbackMove P τ → Prop
  | .pool m => cond s.ledger m
  | .leave p i _ => cond s.ledger (.worker p i)
  | .enqueue _ _ _ | .enqueueSpan _ _ _ => False
  | .call _ | .finish _ => True

instance (cond : TaskLedger P τ → PoolMove P τ → Prop) [∀ l m, Decidable (cond l m)]
    (s : PoolCallbacks P τ) : (m : CallbackMove P τ) → Decidable (s.Quiet cond m)
  | .pool m => inferInstanceAs (Decidable (cond s.ledger m))
  | .leave p i _ => inferInstanceAs (Decidable (cond s.ledger (.worker p i)))
  | .enqueue _ _ _ | .enqueueSpan _ _ _ => .isFalse id
  | .call _ | .finish _ => .isTrue trivial

/-! ### Runs without an `enqueue` of a callback -/

variable {s : PoolCallbacks P τ} {l : TaskLedger P τ} {t : Thread P} {p : P} {i : ℕ}

omit [DecidableEq τ] in
theorem handOver_frame :
    (s.handOver l t p i).ledger = l ∧ (s.handOver l t p i).leavers = s.leavers := by
  unfold handOver
  split_ifs <;> exact ⟨rfl, rfl⟩

omit [DecidableEq τ] in
theorem record_frame {m : PoolMove P τ} :
    (s.record m l).ledger = l ∧ (s.record m l).leavers = s.leavers := by
  unfold record
  split
  · split
    · exact handOver_frame
    · exact ⟨rfl, rfl⟩
  · split
    · exact handOver_frame
    · exact ⟨rfl, rfl⟩
  · exact ⟨rfl, rfl⟩

/-- No callback is inside `enqueue`. -/
def AllFree (s : PoolCallbacks P τ) : Prop := ∀ t x, s.leavers t = some x → x.call = .outside

omit [DecidableEq τ] in
theorem AllFree.setLeaver {x : Option (Leaver P τ)} (h : s.AllFree)
    (hx : ∀ y, x = some y → y.call = .outside) : (s.setLeaver t x).AllFree :=
  (Function.forall_update_iff s.leavers fun _ z => ∀ y, z = some y → y.call = .outside).2
    ⟨hx, fun t' _ => h t'⟩

/-- **Callbacks that do not call `enqueue` add nothing** to what the pools do. -/
theorem reach_ledger {cond : TaskLedger P τ → PoolMove P τ → Prop}
    (h : Reach step IsInitial (Quiet cond) s) :
    Reach TaskLedger.step TaskLedger.IsInitial cond s.ledger ∧ s.AllFree := by
  induction h with
  | start hs =>
    obtain ⟨size, rfl⟩ := hs
    exact ⟨.start ⟨size, rfl⟩, fun _ _ hx => by cases hx⟩
  | @next s _ m _ hm hs ih =>
    obtain ⟨hr, hfree⟩ := ih
    cases m with
    | pool m =>
      simp only [step] at hs
      split_ifs at hs
      obtain ⟨l, hl, rfl⟩ := Option.map_eq_some_iff.1 hs
      rw [AllFree, record_frame.1, record_frame.2]
      exact ⟨hr.next hm hl, hfree⟩
    | leave p i t =>
      simp only [step, leave] at hs
      split_ifs at hs
      obtain ⟨l, hl, hs⟩ := Option.bind_eq_some_iff.1 hs
      split_ifs at hs
      cases hs
      exact ⟨hr.next hm hl, hfree.setLeaver fun y hy => by cases hy; rfl⟩
    | enqueue | enqueueSpan => exact hm.elim
    | call t =>
      obtain ⟨x, hx, hs⟩ := Option.bind_eq_some_iff.1 hs
      rw [hfree t x hx] at hs
      cases hs
    | finish t =>
      simp only [step, finish] at hs
      split_ifs at hs
      cases hs
      exact ⟨hr, hfree.setLeaver fun y hy => by cases hy⟩

/-! ### Tasks -/

/-- **No task is lost or duplicated.**  In every run in which no terminated callback calls
`enqueue`, at every moment, every task that was ever passed to `enqueue` is in exactly one place,
and there once; a task is run at most once, and not run if it is destroyed; when `shutdown` has
returned, all queues of the pool are empty from then on.  No thread takes a task out of an empty
queue, or donates beyond the end of its queue. -/
theorem tasks_conserved (s : PoolCallbacks P τ)
    (h : Reach step IsInitial (Quiet fun _ _ => True) s) : s.ledger.Conserved :=
  TaskLedger.conserved_of_reachable (reach_ledger h).1

/-- A thread takes `n` steps of its call. -/
def calls (t : Thread Unit) (n : ℕ) : List (CallbackMove Unit ℕ) :=
  List.replicate n (.pool (.call t))

/-- A worker takes `n` steps. -/
def works (i n : ℕ) : List (CallbackMove Unit ℕ) := List.replicate n (.pool (.worker () i))

/-- The second of two workers donates, and `shutdown` aborts the target: the donation throws. -/
def interrupted (f g : Thread Unit) : List (CallbackMove Unit ℕ) :=
  [.pool (.enqueueSpan f () [some 0, some 1, some 2, some 3])] ++ calls f 4 ++ works 1 10 ++
    [.pool (.shutdown g ())] ++ calls g 2 ++ works 1 1

/-- A donation is interrupted because its target has been aborted, and the donor's thread runs the
callback.  The donor is started again, and its enqueuer waits for the callback; the new thread runs
the new task, and `shutdown` destroys the rest. -/
theorem tasks_conserved_of_interrupted :
    ∃ s : PoolCallbacks Unit ℕ, Reach step IsInitial (Quiet fun _ _ => True) s ∧
      s.ledger.passed = [0, 1, 2, 3, 4] ∧ s.ledger.executed = [4] ∧
      s.ledger.destroyed = [0, 1, 2, 3] ∧ s.ledger.shutDown () = true ∧ s.ledger.Conserved := by
  let f : Thread Unit := .foreign 0 0
  let g : Thread Unit := .foreign 1 0
  let a : Thread Unit := .foreign 2 0
  let b : Thread Unit := .foreign 3 0
  let schedule : List (CallbackMove Unit ℕ) :=
    List.flatten
      [interrupted f g, [.leave () 1 a], [.pool (.enqueue f () (some 4))], calls f 7, [.finish a],
        calls f 1, works 1 5, works 0 1, calls g 8, works 1 1, [.leave () 1 b, .finish b],
        calls g 3]
  have h : Reach step IsInitial (Quiet fun _ _ => True) _ := .lastState ⟨fun _ => 2, rfl⟩ schedule
  refine ⟨_, h, ?_, ?_, ?_, ?_, tasks_conserved _ h⟩ <;> decide +kernel

/-- **A task that is queued behind `shutdown`.**  The callback of the former thread of a worker
calls `enqueue`, and its `enqueue_local` has found `m_atomic_abort` unset.  Then another thread
shuts the pool down; it joins the new thread of the worker only.  When `shutdown` has returned, the
former thread pushes its task. -/
theorem queued_behind_shutdown :
    ∃ s : PoolCallbacks Unit ℕ, Interleaving.Reachable step IsInitial s ∧
      s.ledger.shutDown () = true ∧ (s.system.worker () 0).privateQueue = [some ((), 2)] := by
  let f : Thread Unit := .foreign 0 0
  let g : Thread Unit := .foreign 1 0
  let a : Thread Unit := .foreign 2 0
  let b : Thread Unit := .foreign 3 0
  -- the worker is started, runs its task and waits; the second enqueuer waits for the callback of
  -- `a`
  let schedule : List (CallbackMove Unit ℕ) :=
    List.flatten
      [[.pool (.enqueue f () (some 0))], calls f 8, works 0 9,
        [.pool (.timeout () 0), .leave () 0 a],
        [.pool (.enqueue f () (some 1))], calls f 7, works 0 9, [.enqueue a () (some 2), .call a],
        [.pool (.shutdown g ())], calls g 4, works 0 2, [.leave () 0 b, .finish b], calls g 3,
        [.call a]]
  exact ⟨_, .lastState ⟨fun _ => 1, rfl⟩ schedule, by decide +kernel⟩

/-! ### Assertions -/

/-- **The assertions of the workers hold in every run that leaves nothing behind** and in which no
terminated callback calls `enqueue`, in every pool of any size, at every point before, during and
after a `shutdown`. -/
theorem assertions_hold (s : PoolCallbacks P τ)
    (h : Reach step IsInitial (Quiet fun l m => l.system.LeavesNothing m) s) (p : P) (i : ℕ) :
    (s.system.pools p).AssertionsHold i :=
  ThreadPools.assertionsHold_of_leavesNothing (TaskLedger.reach_system (reach_ledger h).1) p i

/-- A foreign thread enqueues a span of four to a pool of two workers, and the second worker donates
one of its tasks to the first. -/
theorem assertions_hold_of_donation :
    ∃ s : PoolCallbacks Unit ℕ, Reach step IsInitial (Quiet fun l m => l.system.LeavesNothing m) s ∧
      (s.system.worker () 1).pc = .checkAbort ∧
      (s.system.worker () 1).privateQueue = [some ((), 3)] ∧
      (s.system.worker () 0).publicQueue = [some ((), 0), some ((), 1), some ((), 2)] ∧
      (s.system.pools ()).AssertionsHold 1 := by
  let f : Thread Unit := .foreign 0 0
  let schedule : List (PoolMove Unit ℕ) :=
    List.flatten
      [[.enqueueSpan f () [some 0, some 1, some 2, some 3]], List.replicate 4 (.call f),
        List.replicate 12 (.worker () 1)]
  have h : Reach step IsInitial (Quiet fun l m => l.system.LeavesNothing m) _ :=
    .lastState ⟨fun _ => 2, rfl⟩ (schedule.map .pool)
  exact ⟨_, h, by decide +kernel, by decide +kernel, by decide +kernel, assertions_hold _ h () 1⟩

deriving instance DecidableEq for InnerPc

/-- **A worker that is started again with what was left behind.**  `shutdown` has aborted the first
of two workers and not yet the second, whose donation to the first throws.  A task that is then
enqueued starts a new thread of the second worker: it comes to the swap with two tasks in its
private queue, and to the next `balance_work` with an aborted worker in its list.  In a pool that
nobody shuts down, the callback of a thread that has timed out enqueues a task, and the next thread
comes to the swap with this task in its private queue. -/
theorem restarted_with_leftovers :
    (∃ s : PoolCallbacks Unit ℕ, Interleaving.Reachable step IsInitial s ∧
      (s.system.worker () 1).pc = .lock ∧
      (s.system.worker () 1).abort = false ∧ (s.system.worker () 1).publicQueue = [some ((), 4)] ∧
      (s.system.worker () 1).privateQueue = [some ((), 2), some ((), 3)]) ∧
    (∃ s : PoolCallbacks Unit ℕ, Interleaving.Reachable step IsInitial s ∧
      (s.system.worker () 1).pc = .balance 0 ∧ (s.system.pools ()).inner 1 = .outside ∧
      (s.system.pools ()).idleWorkerLists 1 = [0] ∧ (s.system.worker () 1).assertFailed = true) ∧
    ∃ s : PoolCallbacks Unit ℕ, Interleaving.Reachable step IsInitial s ∧
      (s.system.worker () 0).pc = .lock ∧
      (s.system.pools ()).abort = false ∧ (s.system.worker () 0).publicQueue = [some ((), 2)] ∧
      (s.system.worker () 0).privateQueue = [some ((), 1)] := by
  let f : Thread Unit := .foreign 0 0
  let g : Thread Unit := .foreign 1 0
  let a : Thread Unit := .foreign 2 0
  let schedule : List (CallbackMove Unit ℕ) :=
    interrupted f g ++ works 1 1 ++ [.pool (.enqueue f () (some 4))] ++ calls f 9
  let callback : List (CallbackMove Unit ℕ) :=
    List.flatten
      [[.pool (.enqueue f () (some 0))], calls f 8, works 0 9,
        [.pool (.timeout () 0), .leave () 0 a],
        [.enqueue a () (some 1), .call a, .call a], [.pool (.enqueue f () (some 2))], calls f 7]
  exact ⟨⟨_, .lastState ⟨fun _ => 2, rfl⟩ schedule, by decide +kernel⟩,
    ⟨_, .lastState ⟨fun _ => 2, rfl⟩ (schedule ++ works 1 2), by decide +kernel⟩,
    ⟨_, .lastState ⟨fun _ => 1, rfl⟩ callback, by decide +kernel⟩⟩

end PoolCallbacks

end Concurrencpp
