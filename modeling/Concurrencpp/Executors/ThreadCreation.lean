import Concurrencpp.Executors.SemaphorePermits
import Concurrencpp.Executors.ThreadExecutorJoin

/-!
# Threads that cannot be started

The constructor of `std::thread` may throw.  `worker_thread_executor`, `thread_pool_worker` and
`thread_executor` have by then put the tasks into the queue, or an element into `m_workers`, and
nothing takes them out again on the way of the exception.

* `Fails`: the call leaves by the exception of the constructor.
* `HandledWorker`: a worker of a pool with its handle `m_thread`.  When the worker is idle the
  handle of its former thread has been moved to a local variable before the new thread is made, and
  the exception destroys it; the destructor of a handle that is joinable terminates the program.
* `failed_enqueue_keeps_state`: the guarantee holds where nothing is at stake, that is, when a call
  that cannot start its thread has no task, and the pool's worker has no handle.
* `failed_enqueue_changes_state`: every other call that fails breaks it.
* `failed_enqueue_loses_state`: a rejected task that is executed, a `shutdown` that waits for ever,
  and a handle that is destroyed.
-/

namespace Concurrencpp

open Interleaving

variable {τ : Type}

/-! ### The worker thread executor -/

namespace WorkerThreadExecutor

variable {s u : WorkerThreadExecutor τ} {m : WorkerThreadMove τ}

/-- The call leaves by the exception of the thread's constructor. -/
def Fails (s : WorkerThreadExecutor τ) : WorkerThreadMove τ → Prop
  | .enqueue _ tasks available => (s.enqueueForeign tasks available).2 = .threadError
  | .release _ | .thread | .enqueueLocal _ | .shutdownLocal | .shutdown => False

/-- A call that fails has no task. -/
def FailsEmpty (s : WorkerThreadExecutor τ) (m : WorkerThreadMove τ) : Prop :=
  ∀ t tasks available, m = .enqueue t tasks available → s.Fails m → tasks = []

theorem pushForeign_nil : s.pushForeign [] = s := by
  simp [pushForeign, accept, stamp]

theorem enqueueForeign_of_fails {t : ℕ} {tasks : List τ} {available : Bool}
    (hm : s.Fails (.enqueue t tasks available)) :
    s.enqueueForeign tasks available = (s.pushForeign tasks, .threadError) := by
  have houtcome : (s.enqueueForeign tasks available).2 = .threadError := hm
  rcases enqueueForeign_cases (s := s) tasks available with
    hcase | ⟨-, ⟨-, hcase⟩ | ⟨-, hcase⟩ | ⟨-, hcase⟩⟩
  · rw [hcase] at houtcome
    cases houtcome
  · rw [hcase] at houtcome
    simp only at houtcome
    split_ifs at houtcome
  · rw [hcase] at houtcome
    cases houtcome
  · exact hcase

/-- A call that fails, and has no task, changes nothing. -/
theorem eq_of_fails (hc : s.FailsEmpty m) (hm : s.Fails m) (hs : s.step m = some u) : u = s := by
  cases m with
  | enqueue t tasks available =>
    obtain rfl : tasks = [] := hc t tasks available rfl hm
    simp only [step, enqueueForeign_of_fails hm] at hs
    split_ifs at hs with ht
    rw [Bool.not_eq_true] at ht
    cases hs
    rw [pushForeign_nil, decide_false, Function.update_eq_self_iff.2 ht.symm]
  | _ => exact hm.elim

/-- A call that fails, and has tasks, leaves them in the queue. -/
theorem queue_ne_of_fails (hc : ¬ s.FailsEmpty m) (hs : s.step m = some u) :
    u.publicQueue ≠ s.publicQueue := by
  unfold FailsEmpty at hc
  push Not at hc
  obtain ⟨t, tasks, available, rfl, hm, htasks⟩ := hc
  simp only [step, enqueueForeign_of_fails hm] at hs
  split_ifs at hs
  cases hs
  simp [pushForeign, stamp, htasks]

/-- As long as there is no thread there is no task either. -/
def Unstarted (s : WorkerThreadExecutor τ) : Prop :=
  s.joinable = false → s.abort = false → s.publicQueue = []

theorem Unstarted.shutdownStep (h : s.Unstarted) (hok : s.Ok) (hs : ShutdownStep s u) :
    u.Unstarted := by
  cases hs with
  | begin | store | release | fail | skip | finish | destroy => exact h
  | abort => exact fun _ ha => Bool.noConfusion ha
  | join hpc =>
    have habort : s.abort = true := by rw [hok.aborted, hpc]; rfl
    exact fun _ ha => by cases habort.symm.trans ha
  | move => exact fun _ _ => rfl

theorem Unstarted.step (h : s.Unstarted) (hok : s.Ok) (hc : s.FailsEmpty m)
    (hs : s.step m = some u) : u.Unstarted := by
  cases m with
  | enqueue t tasks available =>
    by_cases hfails : s.Fails (.enqueue t tasks available)
    · rw [eq_of_fails hc hfails hs]
      exact h
    simp only [WorkerThreadExecutor.step] at hs
    split_ifs at hs
    cases hs
    rcases enqueueForeign_cases (s := s) tasks available with
      hcase | ⟨-, ⟨hjoinable, hcase⟩ | ⟨-, hcase⟩ | ⟨-, hcase⟩⟩
    · rw [hcase]
      exact h
    · rw [hcase]
      exact fun hj => by cases hjoinable.symm.trans hj
    · rw [hcase]
      exact fun hj => Bool.noConfusion hj
    · exact absurd (congrArg Prod.snd hcase) hfails
  | release | shutdownLocal =>
    simp only [WorkerThreadExecutor.step] at hs
    split_ifs at hs
    cases hs
    exact h
  | thread =>
    simp only [WorkerThreadExecutor.step] at hs
    split_ifs at hs
    have hthread := threadStep_cases hs
    obtain ⟨hjoinable, -⟩ := hthread.frame
    intro hj
    cases hthread.not_gone.symm.trans (hok.absent (hjoinable.symm.trans hj)).1
  | enqueueLocal =>
    simp only [WorkerThreadExecutor.step] at hs
    split_ifs at hs
    cases hs
    unfold WorkerThreadExecutor.enqueueLocal
    split_ifs <;> exact h
  | shutdown => exact h.shutdownStep hok (shutdownStep_cases hs)

theorem unstarted_of_reach (h : Reach step IsInitial FailsEmpty s) : s.Unstarted := by
  induction h with
  | start hs =>
    obtain rfl := hs
    exact fun _ _ => rfl
  | next hr hc hs ih => exact ih.step (ok_of_reachable hr.reachable).1 hc hs

end WorkerThreadExecutor

/-! ### The thread executor -/

namespace ThreadExecutor

/-- The call leaves by the exception of a thread's constructor. -/
def Fails (s : ThreadExecutor τ) : RetireMove τ → Prop
  | .enqueue _ tasks available => s.abort = false ∧ available < tasks.length
  | .thread _ | .shutdown => False

/-- A call has a thread to start only if it has tasks. -/
theorem not_fails_of_starts {s : ThreadExecutor τ} {m : RetireMove τ} (hc : s.Starts m) :
    ¬ s.Fails m := by
  cases m with
  | enqueue => exact fun hm => absurd hm.2 (not_lt.2 hc)
  | thread | shutdown => exact id

/-- The threads that can be started are, and the next element has none. -/
theorem Ok.abandons {s : ThreadExecutor τ} {pending : List ℕ} {tasks : List τ} {available : ℕ}
    (h : s.Ok pending) (habort : s.abort = false) (hlt : available < tasks.length) :
    ∃ i ∈ (s.enqueueAll tasks available).workers,
      ((s.enqueueAll tasks available).threads i).busy = false := by
  induction tasks generalizing s available with
  | nil => cases hlt
  | cons _ _ ih =>
    cases available with
    | zero =>
      refine ⟨s.elements, List.mem_cons_self, Bool.eq_false_iff.2 fun hbusy => ?_⟩
      exact lt_irrefl _ ((h.held s.elements).1 ⟨.workers, (h.busy _).2 hbusy⟩)
    | succ => exact ih (h.enqueueImpl habort) habort (Nat.lt_of_succ_lt_succ hlt)

/-- A call that fails leaves an element in `m_workers` that has no thread. -/
theorem abandons_of_fails {s u : ThreadExecutor τ} {m : RetireMove τ} {pending : List ℕ}
    (h : s.Ok pending) (hm : s.Fails m) (hs : s.step m = some u) :
    ∃ i ∈ u.workers, (u.threads i).busy = false := by
  cases m with
  | enqueue =>
    simp only [ThreadExecutor.step, ThreadExecutor.enqueue, hm.1, Bool.false_eq_true,
      if_false] at hs
    split_ifs at hs
    cases hs
    exact h.abandons hm.1 hm.2
  | thread | shutdown => exact hm.elim

/-- `shutdown` waits, and `m_workers` has an element without a thread. -/
structure Abandoned (i : ℕ) (s : ThreadExecutor τ) : Prop where
  waiting : s.shutdown = .waiting
  abort : s.abort = true
  worker : i ∈ s.workers
  absent : s.threads i = .absent

variable {s u : ThreadExecutor τ} {i j : ℕ}

/-- Another thread moves on. -/
theorem Abandoned.setThread {pc : RetirePc τ} (h : s.Abandoned i) (hj : j ≠ i) :
    (s.setThread j pc).Abandoned i :=
  ⟨h.waiting, h.abort, h.worker, (setThread_of_ne hj.symm).trans h.absent⟩

theorem Abandoned.threadStep (h : s.Abandoned i) (hs : s.threadStep j = some u) :
    u.Abandoned i := by
  have hj : j ≠ i := by
    rintro rfl
    simp only [ThreadExecutor.threadStep, h.absent] at hs
    cases hs
  unfold ThreadExecutor.threadStep at hs
  split at hs
  · cases hs
  · cases hs
  · cases hs
    have hset : (s.setThread j .running).Abandoned i := h.setThread hj
    exact { hset with }
  · cases hs
    exact h.setThread hj
  · split_ifs at hs
    cases hs
    have hset : (s.setThread j (.join s.lastRetired)).Abandoned i := h.setThread hj
    exact { hset with worker := (List.mem_erase_of_ne hj.symm).2 h.worker }
  · cases hs
    exact h.setThread hj
  · split_ifs at hs
    cases hs
    have hset : (s.setThread j .finished).Abandoned i := h.setThread hj
    exact { hset with }

/-- Nothing that can happen takes the element out. -/
theorem Abandoned.step {m : RetireMove τ} (h : s.Abandoned i) (hs : s.step m = some u) :
    u.Abandoned i := by
  cases m with
  | enqueue =>
    simp only [ThreadExecutor.step] at hs
    split_ifs at hs
    cases hs
    unfold ThreadExecutor.enqueue
    rw [if_pos h.abort]
    exact h
  | thread => exact h.threadStep hs
  | shutdown =>
    simp only [ThreadExecutor.step, shutdownStep, h.waiting] at hs
    rw [if_neg (List.ne_nil_of_mem h.worker)] at hs
    cases hs

end ThreadExecutor

/-! ### The worker of a thread pool -/

/-- A worker with `m_thread.joinable()`; `terminated` says that the destructor of a joinable handle
has terminated the program. -/
structure HandledWorker (τ : Type) where
  system : WorkerSystem τ
  joinable : Bool
  terminated : Bool

/-- A move, and whether a thread can be started in it. -/
structure HandledMove (τ : Type) where
  move : WorkerMove τ
  available : Bool

namespace HandledWorker

/-- A new worker. -/
def initial : HandledWorker τ where
  system := .initial
  joinable := false
  terminated := false

/-- A thread of the worker is to be started, and cannot. -/
def failsToStart (s : HandledWorker τ) (available : Bool) : Bool :=
  !available && !s.system.worker.abort && s.system.worker.idle

/-- `enqueue_foreign` up to the exception out of `ensure_worker_active`: the tasks are in the queue,
and `stale_worker` is destroyed. -/
def failEnqueue (s : HandledWorker τ) (tasks : List (Option τ)) : HandledWorker τ where
  system := { s.system with worker := { s.system.worker with
    taskFoundOrAbort := true
    publicQueue := s.system.worker.publicQueue ++ tasks } }
  joinable := false
  terminated := s.joinable

/-- One step. -/
def step (s : HandledWorker τ) (m : HandledMove τ) : Option (HandledWorker τ) :=
  if s.terminated then none
  else
    match m.move with
    | .enqueue k tasks =>
        if s.failsToStart m.available then
          if s.system.enqueuers k = .outside ∧ s.system.worker.lockFree then
            some (s.failEnqueue tasks)
          else none
        else (s.system.step m.move).map fun v => { s with
          system := v
          joinable := s.joinable || s.system.worker.idle }
    | .shutdown => (s.system.step m.move).map fun v => { s with
        system := v
        joinable := s.joinable && s.system.shutdown ≠ .join }
    | .thread _ | .enqueuer _ => (s.system.step m.move).map fun v => { s with system := v }

def IsInitial (s : HandledWorker τ) : Prop := s = initial

/-- The call leaves by the exception of the thread's constructor. -/
def Fails (s : HandledWorker τ) (m : HandledMove τ) : Prop :=
  ∃ k tasks, m.move = .enqueue k tasks ∧ s.failsToStart m.available = true

/-- A call that fails has no task, and finds no handle. -/
def FailsEmpty (s : HandledWorker τ) (m : HandledMove τ) : Prop :=
  ∀ k tasks, m.move = .enqueue k tasks → s.failsToStart m.available = true →
    tasks = [] ∧ s.joinable = false

variable {s u : HandledWorker τ} {m : HandledMove τ}

theorem eq_failEnqueue {k : ℕ} {tasks : List (Option τ)} (hmove : m.move = .enqueue k tasks)
    (hfails : s.failsToStart m.available = true) (hs : s.step m = some u) :
    u = s.failEnqueue tasks := by
  unfold step at hs
  simp only [hmove, hfails, if_true] at hs
  split_ifs at hs
  cases hs
  rfl

/-- A call that fails, and has no task, changes neither the queue nor `m_idle`. -/
theorem queue_of_fails (hc : s.FailsEmpty m) (hm : s.Fails m) (hs : s.step m = some u) :
    u.system.worker.publicQueue = s.system.worker.publicQueue ∧
      u.system.worker.idle = s.system.worker.idle := by
  obtain ⟨k, tasks, hmove, hfails⟩ := hm
  obtain ⟨rfl, -⟩ := hc k tasks hmove hfails
  rw [eq_failEnqueue hmove hfails hs]
  exact ⟨List.append_nil _, rfl⟩

/-- A call that fails with tasks, or finds a handle, leaves the tasks in the queue or destroys the
handle. -/
theorem queue_ne_or_terminated (hc : ¬ s.FailsEmpty m) (hs : s.step m = some u) :
    u.system.worker.publicQueue ≠ s.system.worker.publicQueue ∨ u.terminated = true := by
  unfold FailsEmpty at hc
  push Not at hc
  obtain ⟨k, tasks, hmove, hfails, hstake⟩ := hc
  rw [eq_failEnqueue hmove hfails hs]
  by_cases htasks : tasks = []
  · exact .inr (Bool.not_eq_false _ ▸ hstake htasks)
  · exact .inl (by simp [failEnqueue, htasks])

theorem terminated_step (h : s.terminated = false) (hc : s.FailsEmpty m) (hs : s.step m = some u) :
    u.terminated = false := by
  unfold step at hs
  rw [h, if_neg Bool.false_ne_true] at hs
  cases hmove : m.move with
  | enqueue k tasks =>
    simp only [hmove] at hs
    split_ifs at hs with hfails
    · cases hs
      exact (hc k tasks hmove hfails).2
    · obtain ⟨v, -, rfl⟩ := Option.map_eq_some_iff.1 hs
      rfl
  | _ =>
    simp only [hmove] at hs
    obtain ⟨v, -, rfl⟩ := Option.map_eq_some_iff.1 hs
    rfl

theorem terminated_of_reach (h : Reach step IsInitial FailsEmpty s) : s.terminated = false := by
  induction h with
  | start hs =>
    obtain rfl := hs
    rfl
  | next _ hc hs ih => exact terminated_step ih hc hs

end HandledWorker

/-! ### The three executors -/

/-- **A call of `enqueue` that cannot start a thread changes nothing, if it has nothing to do.**  In
runs of the three executors in which a call that leaves by the exception of the thread's constructor
has no task, and finds no handle of a former thread:

* such a call leaves a worker thread executor as it was, and an executor without a thread holds no
  task;
* no call of a thread executor fails, and every element of `m_workers` has a thread that will take
  it out, so `shutdown` does not wait for one that has never run;
* such a call leaves the public queue of a pool's worker and `m_idle` as they were, and no joinable
  handle is ever destroyed. -/
theorem failed_enqueue_keeps_state (s : WorkerThreadExecutor τ) (x : ThreadExecutor τ)
    (w : HandledWorker τ) (hs : Reach WorkerThreadExecutor.step WorkerThreadExecutor.IsInitial
      WorkerThreadExecutor.FailsEmpty s)
    (hx : Reach ThreadExecutor.step ThreadExecutor.IsInitial ThreadExecutor.Starts x)
    (hw : Reach HandledWorker.step HandledWorker.IsInitial HandledWorker.FailsEmpty w) :
    ((∀ m u, s.FailsEmpty m → s.Fails m → s.step m = some u → u = s) ∧
      (s.joinable = false → s.abort = false → s.publicQueue = [])) ∧
    ((∀ m, x.Starts m → ¬ x.Fails m) ∧ ∀ i ∈ x.workers, (x.threads i).busy = true) ∧
    (∀ m u, w.FailsEmpty m → w.Fails m → w.step m = some u →
      u.system.worker.publicQueue = w.system.worker.publicQueue ∧
        u.system.worker.idle = w.system.worker.idle) ∧ w.terminated = false := by
  refine ⟨⟨fun m u => WorkerThreadExecutor.eq_of_fails, WorkerThreadExecutor.unstarted_of_reach hs⟩,
    ⟨fun m => ThreadExecutor.not_fails_of_starts, fun i hi => ?_⟩,
    fun m u => HandledWorker.queue_of_fails, HandledWorker.terminated_of_reach hw⟩
  obtain ⟨pending, hok⟩ := ThreadExecutor.ok_of_reach hx
  exact (hok.busy i).1 hi

/-- **Every other call that cannot start a thread changes the state**: its tasks stay in the queue
of a worker thread executor, a thread executor keeps an element that no thread takes out, and a
pool's worker keeps the tasks, or the handle of its former thread is destroyed. -/
theorem failed_enqueue_changes_state (s : WorkerThreadExecutor τ) (x : ThreadExecutor τ)
    (w : HandledWorker τ)
    (hx : Reach ThreadExecutor.step ThreadExecutor.IsInitial ThreadExecutor.Starts x) :
    (∀ m u, ¬ s.FailsEmpty m → s.step m = some u → u.publicQueue ≠ s.publicQueue) ∧
    (∀ m u, x.Fails m → x.step m = some u → ∃ i ∈ u.workers, (u.threads i).busy = false) ∧
    ∀ m u, ¬ w.FailsEmpty m → w.step m = some u →
      u.system.worker.publicQueue ≠ w.system.worker.publicQueue ∨ u.terminated = true := by
  obtain ⟨pending, hok⟩ := ThreadExecutor.ok_of_reach hx
  exact ⟨fun _ _ => WorkerThreadExecutor.queue_ne_of_fails,
    fun _ _ => ThreadExecutor.abandons_of_fails hok,
    fun _ _ => HandledWorker.queue_ne_or_terminated⟩

/-- A call without tasks on new executors that cannot start a thread, and an executor whose thread
runs. -/
theorem failed_enqueue_keeps_state_of_empty_span :
    (∀ u, WorkerThreadExecutor.step (.initial : WorkerThreadExecutor ℕ) (.enqueue 0 [] false) =
      some u → u = .initial) ∧
    (∃ x : ThreadExecutor ℕ, x.workers = [0] ∧ (x.threads 0).busy = true) ∧
    (HandledWorker.initial : HandledWorker ℕ).Fails ⟨.enqueue 0 [], false⟩ := by
  have h : Reach ThreadExecutor.step ThreadExecutor.IsInitial ThreadExecutor.Starts _ :=
    .lastState (by rfl) [.enqueue none [10] 1, .thread 0]
  obtain ⟨⟨hkeeps, -⟩, ⟨-, hbusy⟩, -⟩ :=
    failed_enqueue_keeps_state .initial _ .initial (.start rfl) h (.start rfl)
  refine ⟨fun u hu => hkeeps (.enqueue 0 [] false) u ?_ rfl hu,
    ⟨_, by decide +kernel, hbusy 0 (by decide +kernel)⟩, ?_⟩
  · intro t tasks available hm _
    cases hm
    rfl
  · exact ⟨0, [], rfl, rfl⟩

/-- The tasks of a pool's worker that has run one task and has timed out. -/
def timedOutSchedule : List (HandledMove ℕ) :=
  [⟨.enqueue 0 [some 10], true⟩, ⟨.enqueuer 0, true⟩] ++ List.replicate 8 ⟨.thread .step, true⟩ ++
    [⟨.thread .timeout, true⟩, ⟨.thread .step, true⟩]

/-- The first task of a worker thread executor is rejected and executed later; the element of a
thread executor stays in `m_workers` and `shutdown` waits for it in every continuation; the task of
a pool's worker stays in its queue, and the handle of the former thread is destroyed. -/
theorem failed_enqueue_loses_state :
    (∃ u v : WorkerThreadExecutor ℕ, WorkerThreadExecutor.initial.Fails (.enqueue 0 [10] false) ∧
      WorkerThreadExecutor.step .initial (.enqueue 0 [10] false) = some u ∧ u.publicQueue ≠ [] ∧
      run WorkerThreadExecutor.step u [.enqueue 0 [11] true, .thread, .thread, .thread] = some v ∧
      v.executed = [((10, .enqueueForeign), 0)]) ∧
    (∃ u v : ThreadExecutor ℕ, ThreadExecutor.initial.Fails (.enqueue none [10] 0) ∧
      ThreadExecutor.step .initial (.enqueue none [10] 0) = some u ∧ u.workers ≠ [] ∧
      run ThreadExecutor.step u [.shutdown, .shutdown] = some v ∧
      ∀ as x, run ThreadExecutor.step v as = some x → x.shutdown = .waiting) ∧
    ∃ w u : HandledWorker ℕ, Reachable HandledWorker.step HandledWorker.IsInitial w ∧
      w.Fails ⟨.enqueue 0 [some 11], false⟩ ∧ w.step ⟨.enqueue 0 [some 11], false⟩ = some u ∧
      u.system.worker.publicQueue ≠ w.system.worker.publicQueue ∧ u.terminated = true := by
  refine ⟨⟨_, _, rfl, rfl, by decide, rfl, rfl⟩, ?_, ?_⟩
  · refine ⟨_, _, ⟨rfl, by decide⟩, rfl, by decide, rfl, fun as x hx => ?_⟩
    have habandoned := run_invariant (ThreadExecutor.Abandoned 0) (fun s m u h => h.step)
      ⟨rfl, rfl, by decide, rfl⟩ hx
    exact habandoned.waiting
  · exact ⟨_, _, .lastState (by rfl) timedOutSchedule, ⟨0, _, rfl, by decide +kernel⟩, rfl,
      by decide +kernel, by decide +kernel⟩

end Concurrencpp
