import Concurrencpp.Placement
import Concurrencpp.Executors.PoolRange
import Concurrencpp.Executors.TaskFlow

/-!
# Where every task is

A record of all tasks that were ever passed to `enqueue`, kept along a run of all pools.  A task is
still with its caller, in the call that it was passed to, in a queue of one worker, being run, done,
or destroyed without having been run.

An exception ends a call in three ways.  `enqueue(task)` owns its task, and destroys it; so does
each of the calls that `enqueue(span)` makes for a short span, while the tasks behind it stay in the
span; a long span, and one that goes to `enqueue_local`, keeps what has not been moved out of it.

* `TaskLedger.step`: a step of the pools, and what it does to the record.
* `ThreadPools.CallFlow`: how the tasks move in a step of a call; for the threads of the workers
  this is `ThreadPool.Flow`.
-/

namespace Concurrencpp

open Placement EvenSplit
open Function (update)

/-! ### The tasks of a call -/

section tasks

variable {P τ : Type}

/-- The tasks that are left of a span. -/
def Rest.tasks : Rest τ → List τ
  | .each tasks => tasks.reduceOption
  | .ranges _ cut tasks => (tasks.drop cut.start).reduceOption

/-- The tasks that a call has not passed on yet. -/
def Call.tasks : Call P τ → List τ
  | .outside | .shutdown _ _ _ => []
  | .find _ task rest _ | .nextWorker _ task rest => task.toList ++ rest.reduceOption
  | .enqueueLocal _ tasks => tasks.reduceOption
  | .enqueueForeign _ _ tasks rest => tasks.reduceOption ++ rest.tasks
  | .enqueued _ _ _ rest => rest.tasks

/-- The tasks that a new call is made with. -/
def PoolMove.tasks : PoolMove P τ → List τ
  | .enqueue _ _ task => task.toList
  | .enqueueSpan _ _ tasks => tasks.reduceOption
  | _ => []

/-- What a step of a call takes out of the pools: the tasks that are destroyed, and those that stay
with the caller. -/
structure Losses (τ : Type) where
  destroyed : List τ
  kept : List τ

namespace Losses

def none : Losses τ := ⟨[], []⟩

end Losses

namespace ThreadPools

variable [DecidableEq P]

/-- The exception of an aborted worker, and the end of a worker's `shutdown`.  `bySpan`: the call
was made with a span. -/
def losses (s : ThreadPools P τ) (bySpan : Bool) (t : Thread P) : Losses τ :=
  match s.calls t with
  | .enqueueLocal p tasks =>
      if t.thisWorker.any fun this =>
          ((s.worker this.1 this.2).enqueueLocal (given p tasks)).isNone then
        if bySpan then ⟨[], tasks.reduceOption⟩ else ⟨tasks.reduceOption, []⟩
      else .none
  | .enqueueForeign p index tasks rest =>
      if (s.worker p index).abort then
        match rest with
        | .each _ => ⟨tasks.reduceOption, rest.tasks⟩
        | .ranges _ _ _ => ⟨[], tasks.reduceOption ++ rest.tasks⟩
      else .none
  | .shutdown p i .clear =>
      if i < (s.pools p).size then
        ⟨((s.worker p i).tasks .privateQueue ++ (s.worker p i).tasks .publicQueue).map Prod.snd, []⟩
      else .none
  | _ => .none

end ThreadPools

end tasks

/-! ### The record -/

/-- Where a task can be. -/
inductive TaskPlace (P : Type)
  | call (t : Thread P)
  | caller
  | queue (k : WorkerQueue) (p : P) (i : ℕ)
  | executing (p : P) (i : ℕ)
  | executed
  | destroyed

/-- All pools with the tasks that were passed to them.  `caller` are the tasks that an exception has
left in a span; `executing` is the task that the thread of a worker runs; `shutDown p`: the call of
`shutdown` on `p` that visits the workers has returned. -/
structure TaskLedger (P τ : Type) where
  system : ThreadPools P τ
  passed : List τ
  caller : List τ
  executing : P → ℕ → List τ
  executed : List τ
  destroyed : List τ
  bySpan : Thread P → Bool
  shutDown : P → Bool

namespace TaskLedger

variable {P τ : Type} [DecidableEq P] [DecidableEq τ] {l u : TaskLedger P τ} {t : Thread P} {p : P}
  {i : ℕ}

/-- New pools. -/
def initial (size : P → ℕ) : TaskLedger P τ where
  system := .initial size
  passed := []
  caller := []
  executing := fun _ _ => []
  executed := []
  destroyed := []
  bySpan := fun _ => false
  shutDown := fun _ => false

def IsInitial (l : TaskLedger P τ) : Prop := ∃ size, l = initial size

/-- The tasks in a place. -/
def content (l : TaskLedger P τ) : TaskPlace P → List τ
  | .call t => (l.system.calls t).tasks
  | .caller => l.caller
  | .queue k p i => ((l.system.worker p i).tasks k).map Prod.snd
  | .executing p i => l.executing p i
  | .executed => l.executed
  | .destroyed => l.destroyed

/-- The tasks that the thread of the worker has begun to run in this step. -/
def begun (l : TaskLedger P τ) (p : P) (i : ℕ) (v : ThreadPools P τ) : List τ :=
  ((v.worker p i).executed.drop (l.system.worker p i).executed.length).map Prod.snd

/-- The task that the thread of the worker runs is done. -/
def finish (l : TaskLedger P τ) (p : P) (i : ℕ) : TaskLedger P τ :=
  { l with
    executing := update l.executing p (update (l.executing p) i [])
    executed := l.executed ++ l.executing p i }

/-- A step of the thread of a worker, or an exception out of its task, has led to `v`. -/
def recordThread (l : TaskLedger P τ) (p : P) (i : ℕ) (v : ThreadPools P τ) : TaskLedger P τ :=
  if (v.worker p i).pc = .running then
    { l with
      system := v
      executing := update l.executing p
        (update (l.executing p) i (l.executing p i ++ l.begun p i v)) }
  else { l with system := v }.finish p i

/-- A new call has led to `v`. -/
def recordEnqueue (l : TaskLedger P τ) (t : Thread P) (bySpan : Bool) (tasks : List τ)
    (v : ThreadPools P τ) : TaskLedger P τ :=
  { l with
    system := v
    passed := l.passed ++ tasks
    caller := l.caller.filter (· ∉ tasks)
    bySpan := update l.bySpan t bySpan }

/-- A step of a call has led to `v`. -/
def recordCall (l : TaskLedger P τ) (t : Thread P) (v : ThreadPools P τ) : TaskLedger P τ :=
  { l with
    system := v
    caller := l.caller ++ (l.system.losses (l.bySpan t) t).kept
    destroyed := l.destroyed ++ (l.system.losses (l.bySpan t) t).destroyed
    shutDown := fun p => l.shutDown p ||
      match l.system.calls t with
      | .shutdown q i _ => decide (q = p ∧ (l.system.pools p).size ≤ i)
      | _ => false }

def record (l : TaskLedger P τ) (m : PoolMove P τ) (v : ThreadPools P τ) : TaskLedger P τ :=
  match m with
  | .worker p i | .throw p i => l.recordThread p i v
  | .timeout _ _ | .shutdown _ _ | .joinThrows _ => { l with system := v }
  | .enqueue t _ _ => l.recordEnqueue t false m.tasks v
  | .enqueueSpan t _ _ => l.recordEnqueue t true m.tasks v
  | .call t => l.recordCall t v

/-- One step.  A new call is made with tasks that were not passed on before, or have stayed with the
caller; a span has no task twice. -/
def step (l : TaskLedger P τ) (m : PoolMove P τ) : Option (TaskLedger P τ) :=
  if m.tasks.Nodup ∧ ∀ x ∈ m.tasks, x ∈ l.passed → x ∈ l.caller then
    (l.system.step m).map (l.record m)
  else none

/-- The states that some interleaving reaches. -/
def Reachable : TaskLedger P τ → Prop := Interleaving.Reachable step IsInitial

end TaskLedger

/-! ### How the tasks of a call move -/

namespace ThreadPools

variable {P τ : Type} {s u : ThreadPools P τ} {t : Thread P} {p : P} {i : ℕ}

/-- What is left of a call of `t`: only a thread without a worker makes calls one by one, and the
variables of the loop over the workers are those of its next iteration. -/
def RestFits (size : P → ℕ) (t : Thread P) (p : P) : Rest τ → Prop
  | .each tasks => t.thisWorker.isSome = true → tasks = []
  | .ranges i cut tasks => cut = .nth tasks.length (size p) i ∧ i ≤ size p ∧ 0 < size p

def CallFits (size : P → ℕ) (t : Thread P) : Call P τ → Prop
  | .find p _ rest _ | .nextWorker p _ rest => RestFits size t p (.each rest)
  | .enqueueForeign p _ _ rest | .enqueued p _ _ rest => RestFits size t p rest
  | .outside | .enqueueLocal _ _ | .shutdown _ _ _ => True

theorem tasks_enqueueEach (tasks : List (Option τ)) :
    (s.enqueueEach t p tasks).tasks = tasks.reduceOption := by
  cases tasks with
  | nil => rfl
  | cons task rest =>
    change task.toList ++ rest.reduceOption = _
    cases task <;> rfl

/-- The loop over the workers has what lies behind its variable `begin`. -/
theorem tasks_enqueueRanges {cut : Cut} {tasks : List (Option τ)}
    (hcut : cut = .nth tasks.length (s.pools p).size i) (hi : i ≤ (s.pools p).size)
    (hpos : 0 < (s.pools p).size) :
    (s.enqueueRanges p i cut tasks).tasks = (tasks.drop cut.start).reduceOption := by
  unfold enqueueRanges
  split_ifs with hlt
  · change (cut.grow.range tasks).reduceOption ++ (tasks.drop cut.grow.stop).reduceOption = _
    rw [← List.reduceOption_append, hcut, Cut.range_nth, Cut.nth_stop, part_append, Cut.nth_start]
  · obtain rfl : i = (s.pools p).size := le_antisymm hi (not_lt.1 hlt)
    have hnil : tasks.drop cut.start = [] := by
      rw [hcut, Cut.nth_start, border_last hpos]
      exact List.drop_length
    rw [hnil]
    rfl

theorem callFits_enqueueRanges {cut : Cut} {tasks : List (Option τ)}
    (hcut : cut = .nth tasks.length (s.pools p).size i) (hpos : 0 < (s.pools p).size) :
    CallFits (fun p => (s.pools p).size) t (s.enqueueRanges p i cut tasks) := by
  unfold enqueueRanges
  split_ifs with hlt
  · exact ⟨by rw [hcut]; rfl, hlt, hpos⟩
  · trivial

theorem callFits_enqueueEach {tasks : List (Option τ)} {size : P → ℕ}
    (h : RestFits size t p (.each tasks)) : CallFits size t (s.enqueueEach t p tasks) := by
  cases tasks with
  | nil => trivial
  | cons task rest => exact fun hthis => absurd (h hthis) (List.cons_ne_nil task rest)

/-- What is left of a call, and what it goes on with. -/
theorem resume_tasks {rest : Rest τ} (h : RestFits (fun p => (s.pools p).size) t p rest) :
    (s.resume t p rest).tasks = rest.tasks ∧
      CallFits (fun p => (s.pools p).size) t (s.resume t p rest) := by
  cases rest with
  | each tasks => exact ⟨tasks_enqueueEach tasks, callFits_enqueueEach h⟩
  | ranges => exact ⟨tasks_enqueueRanges h.1 h.2.1 h.2.2, callFits_enqueueRanges h.1 h.2.2⟩

theorem tasks_enqueue {task : Option τ} : (s.enqueue t p task).tasks = task.toList := by
  have hfind : ∀ q, (Call.find p task [] q : Call P τ).tasks = task.toList :=
    fun q => List.append_nil _
  unfold enqueue
  split
  · split_ifs
    · exact List.reduceOption_singleton task
    · exact hfind _
  · exact hfind _

theorem callFits_enqueue {task : Option τ} {size : P → ℕ} :
    CallFits size t (s.enqueue t p task) := by
  have hfind : ∀ q, CallFits size t (.find p task [] q) := fun q _ => rfl
  unfold enqueue
  split
  · split_ifs
    · trivial
    · exact hfind _
  · exact hfind _

theorem enqueueSpan_tasks {tasks : List (Option τ)} {c : Call P τ}
    (hc : s.enqueueSpan t p tasks = some c) :
    c.tasks = tasks.reduceOption ∧ CallFits (fun p => (s.pools p).size) t c := by
  unfold enqueueSpan at hc
  split at hc
  · cases hc
    exact ⟨rfl, trivial⟩
  · next hthis =>
    split_ifs at hc with hshort hzero <;> cases hc
    · refine ⟨tasks_enqueueEach tasks, callFits_enqueueEach fun hsome => ?_⟩
      rw [hthis] at hsome
      cases hsome
    · have hpos := Nat.pos_of_ne_zero hzero
      exact ⟨tasks_enqueueRanges (i := 0) rfl (Nat.zero_le _) hpos, callFits_enqueueRanges rfl hpos⟩

theorem given_tasks (p : P) (tasks : List (Option τ)) :
    (given p tasks).reduceOption.map Prod.snd = tasks.reduceOption := by
  unfold given
  rw [List.reduceOption_map, List.map_map]
  exact List.map_id _

variable [DecidableEq P]

/-- How the tasks move in a step of a call. -/
inductive CallFlow (s : ThreadPools P τ) (bySpan : Bool) (t : Thread P) (u : ThreadPools P τ) : Prop
  | same (htasks : ∀ k q j, (u.worker q j).tasks k = (s.worker q j).tasks k)
      (hcall : (u.calls t).tasks = (s.calls t).tasks) (hlosses : s.losses bySpan t = .none)
  | store {k : WorkerQueue} {p : P} {i : ℕ} {stored : List τ}
      (hstored : ((u.worker p i).tasks k).map Prod.snd = ((s.worker p i).tasks k).map Prod.snd ++
        stored)
      (hother : ∀ k' q j, ¬ (k' = k ∧ q = p ∧ j = i) →
        (u.worker q j).tasks k' = (s.worker q j).tasks k')
      (hcall : (s.calls t).tasks = stored ++ (u.calls t).tasks)
      (hlosses : s.losses bySpan t = .none)
  | refuse (htasks : ∀ k q j, (u.worker q j).tasks k = (s.worker q j).tasks k)
      (hcall : (s.calls t).tasks = (s.losses bySpan t).destroyed ++ (s.losses bySpan t).kept)
      (hcall' : (u.calls t).tasks = [])
  | clear {p : P} {i : ℕ} (hcleared : ∀ k, (u.worker p i).tasks k = [])
      (hother : ∀ k q j, ¬ (q = p ∧ j = i) → (u.worker q j).tasks k = (s.worker q j).tasks k)
      (hcall : (s.calls t).tasks = []) (hcall' : (u.calls t).tasks = [])
      (hlosses : s.losses bySpan t =
        ⟨((s.worker p i).tasks .privateQueue ++ (s.worker p i).tasks .publicQueue).map Prod.snd,
          []⟩)

theorem worker_setWorker_of_ne {q : P} {j : ℕ} {w : Worker (P × τ)} (hne : ¬ (q = p ∧ j = i)) :
    (s.setWorker p i w).worker q j = s.worker q j := by
  unfold worker setWorker setPool
  by_cases hq : q = p
  · subst hq
    have hj : j ≠ i := fun hj => hne ⟨rfl, hj⟩
    simp [ThreadPool.setWorker, hj]
  · simp [hq]

theorem tasks_of_sameQueues {w : Worker (P × τ)} (hw : (s.worker p i).SameQueues w)
    (k : WorkerQueue) (q : P) (j : ℕ) :
    ((s.setWorker p i w).worker q j).tasks k = (s.worker q j).tasks k := by
  by_cases hne : q = p ∧ j = i
  · obtain ⟨rfl, rfl⟩ := hne
    rw [worker_setWorker]
    exact hw.tasks k
  · rw [worker_setWorker_of_ne hne]

theorem tasks_setPool {pool : ThreadPool (P × τ)} (hpool : pool.workers = (s.pools p).workers)
    (k : WorkerQueue) (q : P) (j : ℕ) :
    ((s.setPool p pool).worker q j).tasks k = (s.worker q j).tasks k := by
  unfold worker setPool
  by_cases hq : q = p
  · subst hq
    simp [hpool]
  · simp [hq]

/-- Tasks are appended to one queue of a worker. -/
theorem callFlow_store {bySpan : Bool} {k : WorkerQueue} {w : Worker (P × τ)} {c : Call P τ} {q : P}
    (tasks : List (Option τ))
    (hself : w.tasks k = (s.worker p i).tasks k ++ (given q tasks).reduceOption)
    (hkind : ∀ k', k' ≠ k → w.tasks k' = (s.worker p i).tasks k')
    (hcall : (s.calls t).tasks = tasks.reduceOption ++ c.tasks)
    (hlosses : s.losses bySpan t = .none) :
    CallFlow s bySpan t ((s.setWorker p i w).setCall t c) := by
  have hstored : (((s.setWorker p i w).worker p i).tasks k).map Prod.snd =
      ((s.worker p i).tasks k).map Prod.snd ++ tasks.reduceOption := by
    rw [worker_setWorker, hself, List.map_append, given_tasks]
  refine .store (k := k) (p := p) (i := i) hstored (fun k' r j hne => ?_) ?_ hlosses
  · change ((s.setWorker p i w).worker r j).tasks k' = _
    by_cases hrj : r = p ∧ j = i
    · obtain ⟨rfl, rfl⟩ := hrj
      rw [worker_setWorker]
      exact hkind k' fun hk => hne ⟨hk, rfl, rfl⟩
    · rw [worker_setWorker_of_ne hrj]
  · rw [hcall, setCall_self]

/-- A visit of `shutdown` clears the queues of a worker, or leaves them alone. -/
theorem callFlow_visit {bySpan : Bool} {pc : ShutdownPc} {r : Worker (P × τ) × ShutdownPc}
    (hcall : s.calls t = .shutdown p i pc) (hi : i < (s.pools p).size)
    (hr : (s.worker p i).shutdownStep pc = some r) :
    CallFlow s bySpan t ((s.setWorker p i r.1).setCall t
      (if r.2 = .done then .shutdown p (i + 1) .before else .shutdown p i r.2)) := by
  cases Worker.shutdownStep_cases hr with
  | clear =>
    refine .clear (p := p) (i := i) (fun k => ?_) (fun k q j hne => ?_) (by rw [hcall]; rfl)
      (by rw [setCall_self]; rfl) (by simp [losses, hcall, hi])
    · change ((s.setWorker p i _).worker p i).tasks k = []
      rw [worker_setWorker]
      cases k <;> rfl
    · change ((s.setWorker p i _).worker q j).tasks k = _
      rw [worker_setWorker_of_ne hne]
  | _ =>
    refine .same (tasks_of_sameQueues ⟨rfl, rfl, rfl⟩) ?_ (by simp [losses, hcall])
    rw [setCall_self, hcall]
    rfl

theorem callStep_flow (bySpan : Bool) (hfits : CallFits (fun p => (s.pools p).size) t (s.calls t))
    (hs : s.callStep t = some u) : CallFlow s bySpan t u := by
  cases callStep_cases hs with
  | @searched _ task rest _ hcall =>
    refine .same (fun _ _ _ => rfl) ?_ (by simp [losses, hcall])
    rw [setCall_self, hcall]
    unfold searched
    split
    · change [task].reduceOption ++ rest.reduceOption = _
      rw [List.reduceOption_singleton]
      rfl
    · split
      next hthis =>
        -- a thread with a worker has no other task in its call
        rw [hcall] at hfits
        have hnil : rest = [] := hfits (by rw [hthis]; rfl)
        change [task].reduceOption = task.toList ++ rest.reduceOption
        rw [hnil, List.reduceOption_singleton, List.reduceOption_nil, List.append_nil]
      next => rfl
  | @seek _ _ _ _ hcall =>
    refine .same (tasks_setPool rfl) ?_ (by simp [losses, hcall])
    rw [setCall_self, hcall]
    rfl
  | @nextWorker _ task rest hcall =>
    refine .same (tasks_setPool rfl) ?_ (by simp [losses, hcall])
    rw [setCall_self, hcall]
    change [task].reduceOption ++ rest.reduceOption = _
    rw [List.reduceOption_singleton]
    rfl
  | @storedLocal p tasks _ _ hcall hthis hw =>
    obtain ⟨-, rfl⟩ := Worker.enqueueLocal_eq_some hw
    refine callFlow_store (k := .privateQueue) (q := p) tasks ?_ (fun k hk => ?_) ?_ ?_
    · exact List.reduceOption_append _ _
    · cases k with
      | privateQueue => exact absurd rfl hk
      | publicQueue => rfl
    · rw [hcall]
      exact (List.append_nil _).symm
    · simp [losses, hcall, hthis, hw]
  | @refusedLocal _ _ _ hcall hthis hw =>
    refine .refuse (fun _ _ _ => rfl) ?_ (by rw [setCall_self]; rfl)
    rw [hcall]
    simp only [losses, hcall, hthis, Option.any_some, hw, Option.isNone_none, if_true]
    split_ifs
    · rfl
    · exact (List.append_nil _).symm
  | @storedForeign p index tasks rest w pc hcall hw =>
    obtain ⟨hprivate, hpublic, -⟩ := Worker.enqueueForeign_queues hw
    have habort := Worker.abort_of_accepts (Worker.enqueueForeign_accepts hw)
    refine callFlow_store (k := .publicQueue) (q := p) tasks ?_ (fun k hk => ?_) ?_ ?_
    · change w.publicQueue.reduceOption = _
      rw [show w.publicQueue = _ from hpublic]
      exact List.reduceOption_append _ _
    · cases k with
      | privateQueue => exact congrArg List.reduceOption hprivate
      | publicQueue => exact absurd rfl hk
    · have hrest : (if pc = .outside then s.resume t p rest else .enqueued p index pc rest).tasks =
          rest.tasks := by
        split_ifs
        · rw [hcall] at hfits
          exact (resume_tasks hfits).1
        · rfl
      rw [hcall, hrest]
      rfl
    · simp [losses, hcall, habort]
  | @refusedForeign _ _ _ rest hcall hw =>
    refine .refuse (fun _ _ _ => rfl) ?_ (by rw [setCall_self]; rfl)
    rw [hcall]
    simp only [losses, hcall, Worker.abort_of_refuses hw, if_true]
    cases rest <;> rfl
  | @enqueued _ _ _ _ _ hcall hr =>
    refine .same (tasks_of_sameQueues (Worker.enqueuerStep_sameQueues hr)) ?_
      (by simp [losses, hcall])
    rw [setCall_self, hcall]
    rw [hcall] at hfits
    exact (resume_tasks hfits).1
  | visit hcall hi hr => exact callFlow_visit hcall hi hr
  | @visited _ _ pc hcall hi =>
    refine .same (fun _ _ _ => rfl) (by rw [setCall_self, hcall]; rfl) ?_
    cases pc with
    | clear => simp [losses, hcall, not_lt.2 hi]
    | _ => simp [losses, hcall]

theorem callStep_fits (hfits : CallFits (fun p => (s.pools p).size) t (s.calls t))
    (hs : s.callStep t = some u) : CallFits (fun p => (s.pools p).size) t (u.calls t) := by
  cases callStep_cases hs with
  | searched hcall =>
    rw [hcall] at hfits
    rw [setCall_self]
    unfold searched
    split
    · exact hfits
    · split
      · trivial
      · exact hfits
  | seek hcall | nextWorker hcall =>
    rw [hcall] at hfits
    rw [setCall_self]
    exact hfits
  | storedForeign hcall =>
    rw [hcall] at hfits
    rw [setCall_self]
    split_ifs
    · exact (resume_tasks hfits).2
    · exact hfits
  | enqueued hcall =>
    rw [hcall] at hfits
    rw [setCall_self]
    exact (resume_tasks hfits).2
  | storedLocal | refusedLocal | refusedForeign | visited =>
    rw [setCall_self]
    trivial
  | visit =>
    rw [setCall_self]
    split_ifs <;> trivial

end ThreadPools

end Concurrencpp
