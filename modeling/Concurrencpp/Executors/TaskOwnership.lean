import Concurrencpp.Executors.TaskOrigin

/-!
# The tasks of a pool

Which worker gets a task that was given to a pool.  `enqueue` finds the worker of the calling thread
in a thread-local variable and appends to its private queue when it appears empty, when no idle
worker is found, and whenever a span is enqueued; the pool of that worker is not compared with the
pool that is called.

* `ThreadPools.owned_by_pool`: tasks stay with their pool in every run in which the routing leads to
  `enqueue_local` only inside the called pool.
* `ThreadPools.run_by_other_pool`: a run in which a task of the background executor enqueues a task
  to the thread pool, and the thread of the background executor runs it.
-/

namespace Concurrencpp

open Interleaving

namespace ThreadPools

variable {P τ : Type} [DecidableEq P] {s u : ThreadPools P τ} {t : Thread P} {p q : P}

/-! ### The routing -/

/-- The search of a thread of `q` has not come to an end without an idle worker. -/
def CallRouted (q : P) : Call P τ → Prop
  | .find p _ _ search => q = p ∨ search.pc ≠ .done ∨ search.found ≠ []
  | _ => True

/-- The routing of `enqueue` leads to `enqueue_local` only inside the pool that is called.  A thread
of another pool calls `enqueue(task)` only while its own worker does not appear empty, and then
finds an idle worker; it calls `enqueue(span)` only without tasks. -/
def Routed (s : ThreadPools P τ) : PoolMove P τ → Prop
  | .enqueue (.worker q j) p _ => q = p ∨ (s.worker q j).appearsEmpty = false
  | .enqueueSpan (.worker q _) p tasks => q = p ∨ tasks = []
  | .call (.worker q j) => CallRouted q (s.calls (.worker q j))
  | _ => True

instance (q : P) : (c : Call P τ) → Decidable (CallRouted q c)
  | .find _ _ _ _ => inferInstanceAs (Decidable (_ ∨ _))
  | .outside | .nextWorker _ _ _ | .enqueueLocal _ _ | .enqueueForeign _ _ _ _ | .enqueued _ _ _ _
  | .shutdown _ _ _ => .isTrue trivial

instance (s : ThreadPools P τ) : (m : PoolMove P τ) → Decidable (Routed s m)
  | .enqueue (.worker _ _) _ _ | .enqueueSpan (.worker _ _) _ _ =>
      inferInstanceAs (Decidable (_ ∨ _))
  | .call (.worker q j) => inferInstanceAs (Decidable (CallRouted q (s.calls (.worker q j))))
  | .worker _ _ | .timeout _ _ | .throw _ _ | .enqueue (.foreign _ _) _ _
  | .enqueueSpan (.foreign _ _) _ _ | .shutdown _ _ | .call (.foreign _ _) | .joinThrows _ =>
      .isTrue trivial

/-- A thread that is about to call `enqueue_local` with a task is a thread of the called pool. -/
def LocalOk (t : Thread P) : Call P τ → Prop
  | .enqueueLocal p tasks => ∀ q j, t = .worker q j → q = p ∨ tasks = []
  | _ => True

theorem localOk_setCall {c : Call P τ} (h : ∀ t, LocalOk t (s.calls t)) (hc : LocalOk t c) :
    ∀ t', LocalOk t' ((s.setCall t c).calls t') := by
  intro t'
  rcases eq_or_ne t' t with rfl | hne
  · simpa [setCall] using hc
  · simpa [setCall, hne] using h t'

omit [DecidableEq P] in
theorem localOk_resume (s : ThreadPools P τ) (t : Thread P) (p : P) (rest : Rest τ) :
    LocalOk t (s.resume t p rest) := by
  cases rest with
  | each tasks => cases tasks <;> trivial
  | ranges =>
    unfold resume enqueueRanges
    dsimp only
    split_ifs <;> trivial

theorem localOk_callStep (h : ∀ t, LocalOk t (s.calls t)) (hm : Routed s (.call t))
    (hs : CallStep s t u) : ∀ t', LocalOk t' (u.calls t') := by
  cases hs with
  | searched hcall hdone =>
    refine localOk_setCall h ?_
    unfold searched
    split
    case h_1 => trivial
    case h_2 hfound =>
      split
      case h_2 => trivial
      -- no idle worker: the caller keeps the task
      rintro q j rfl
      simp only [Routed, CallRouted, hcall] at hm
      rcases hm with hm | hm | hm
      · exact .inl hm
      · exact absurd hdone hm
      · exact absurd hfound hm
  | seek | nextWorker | storedLocal | refusedLocal | refusedForeign | visited =>
    exact localOk_setCall h trivial
  | storedForeign =>
    refine localOk_setCall h ?_
    split_ifs
    · exact localOk_resume s t _ _
    · trivial
  | enqueued => exact localOk_setCall h (localOk_resume s t _ _)
  | visit =>
    refine localOk_setCall h ?_
    split_ifs <;> trivial

theorem localOk_step {m : PoolMove P τ} (h : ∀ t, LocalOk t (s.calls t)) (hm : Routed s m)
    (hs : s.step m = some u) : ∀ t, LocalOk t (u.calls t) := by
  cases step_cases hs with
  | worker | timeout | throw => exact h
  | @enqueue t =>
    refine localOk_setCall h ?_
    cases t with
    | foreign => trivial
    | worker =>
      unfold enqueue
      dsimp only [Thread.thisWorker]
      split_ifs with hempty
      · rintro q' j' ⟨⟩
        rcases hm with hm | hm
        · exact .inl hm
        · exact absurd hempty (by simp [hm])
      · trivial
  | @enqueueSpan t p tasks _ _ hc =>
    refine localOk_setCall h ?_
    cases t with
    | foreign =>
      simp only [enqueueSpan, Thread.thisWorker] at hc
      split_ifs at hc <;> cases hc
      · exact localOk_resume s _ p (.each tasks)
      · exact localOk_resume s _ p (.ranges 0 _ tasks)
    | worker =>
      cases hc
      rintro q' j' ⟨⟩
      exact hm
  | shutdown =>
    refine localOk_setCall (s := s.setPool _ _) h ?_
    split_ifs <;> trivial
  | call hs => exact localOk_callStep h hm hs
  | joinThrows => exact localOk_setCall h trivial

/-- Every task that a pool has had was given to it. -/
structure Owned (s : ThreadPools P τ) : Prop where
  calls : ∀ t, LocalOk t (s.calls t)
  pools : ∀ p x, (s.pools p).HasHad x → x.1 = p

theorem Owned.step {m : PoolMove P τ} (h : Owned s) (hm : Routed s m) (hs : s.step m = some u) :
    Owned u where
  calls := localOk_step h.calls hm hs
  pools := fun q x hx => by
    rcases step_hasHad hs hx with hx | hx | ⟨j, tasks, -, hcall, hmem⟩
    · exact h.pools q x hx
    · exact hx
    · have hlocal := h.calls (.worker q j)
      rw [hcall] at hlocal
      rcases hlocal q j rfl with hq | hempty
      · exact hq.symm
      · rw [hempty] at hmem
        cases hmem

theorem owned_of_reach (h : Reach step IsInitial Routed s) : Owned s := by
  induction h with
  | start hs =>
    obtain ⟨size, rfl⟩ := hs
    refine ⟨fun _ => trivial, fun p x hx => ?_⟩
    obtain ⟨i, hi⟩ := hx
    exact absurd hi Worker.not_hasHad_initial
  | next _ hm hs ih => exact ih.step hm hs

/-- **A pool keeps its tasks as long as the routing does.**  In a run in which no thread of another
pool is led to `enqueue_local`, a task that was given to a pool is only ever in a queue of a worker
of this pool, and run by its thread.  A step outside the condition leads a thread to `enqueue_local`
on a worker of another pool. -/
theorem owned_by_pool :
    (∀ s : ThreadPools P τ, Reach step IsInitial Routed s →
      ∀ q i p task, (s.worker q i).HasHad (p, task) → q = p ∧ i < (s.pools p).size) ∧
    (∀ s : ThreadPools P τ, Reachable s → ∀ m u, s.step m = some u → ¬ Routed s m →
      ∃ q j p tasks, q ≠ p ∧ tasks ≠ [] ∧ u.calls (.worker q j) = .enqueueLocal p tasks) := by
  refine ⟨fun s h q i p task hx => ?_, fun s _ m u hs hm => ?_⟩
  · obtain rfl : p = q := (owned_of_reach h).pools q (p, task) ⟨i, hx⟩
    refine ⟨rfl, ?_⟩
    by_contra hi
    have hinit := ((inRange_of_reachable h.reachable).pools p).workers i (not_lt.1 hi)
    rw [show s.worker p i = _ from hinit] at hx
    exact Worker.not_hasHad_initial hx
  · unfold Routed at hm
    split at hm
    case h_1 q j p task =>
      simp only [not_or, Bool.not_eq_false] at hm
      simp only [step] at hs
      split_ifs at hs
      cases hs
      exact ⟨q, j, p, [task], hm.1, by simp, by simp [setCall, enqueue, Thread.thisWorker, hm.2]⟩
    case h_2 q j p tasks =>
      simp only [not_or] at hm
      simp only [step] at hs
      split_ifs at hs
      cases hs
      exact ⟨q, j, p, tasks, hm.1, hm.2, by simp [setCall]⟩
    case h_3 q j =>
      unfold CallRouted at hm
      split at hm
      case h_1 p task rest search hcall =>
        simp only [not_or, not_not] at hm
        simp only [step, callStep, hcall] at hs
        cases hs
        refine ⟨q, j, p, [task], hm.1, by simp, ?_⟩
        simp [findStep, hm.2.1, hm.2.2, searched, Thread.thisWorker, setCall]
      case h_2 => exact absurd trivial hm
    case h_4 => exact absurd trivial hm

end ThreadPools

/-- The two thread pools that `runtime` creates. -/
inductive RuntimePool
  | threadPoolExecutor
  | backgroundExecutor
  deriving DecidableEq, Repr

namespace ThreadPools

open RuntimePool

/-- A thread of the background executor, with a task left in its own queue, enqueues to the thread
pool and finds an idle worker there. -/
theorem owned_by_pool_of_idle_worker :
    ∃ s : ThreadPools RuntimePool ℕ, Reach step IsInitial Routed s ∧
      (s.worker threadPoolExecutor 1).publicQueue = [some (threadPoolExecutor, 2)] ∧
      (∀ q i p task, (s.worker q i).HasHad (p, task) → q = p ∧ i < (s.pools p).size) := by
  let f : Thread RuntimePool := .foreign 0 0
  let w : Thread RuntimePool := .worker backgroundExecutor 0
  let size : RuntimePool → ℕ := fun p => if p = threadPoolExecutor then 2 else 1
  let schedule : List (PoolMove RuntimePool ℕ) :=
    List.flatten
      [[.enqueueSpan f backgroundExecutor [some 0, some 1], .call f, .call f],
        List.replicate 4 (.worker backgroundExecutor 0),
        [.enqueue w threadPoolExecutor (some 2)], List.replicate 8 (.call w)]
  have h : Reach step IsInitial Routed _ := .lastState ⟨size, rfl⟩ schedule
  exact ⟨_, h, by decide +kernel, owned_by_pool.1 _ h⟩

/-- A task that runs on the background executor, whose worker has no other task, enqueues to the
thread pool. -/
theorem run_by_other_pool :
    ∃ s : ThreadPools RuntimePool ℕ, Reachable s ∧
      (threadPoolExecutor, 2) ∈ (s.worker backgroundExecutor 0).executed := by
  let f : Thread RuntimePool := .foreign 0 0
  let w : Thread RuntimePool := .worker backgroundExecutor 0
  let schedule : List (PoolMove RuntimePool ℕ) :=
    List.flatten
      [[.enqueue f backgroundExecutor (some 1)], List.replicate 8 (.call f),
        List.replicate 4 (.worker backgroundExecutor 0),
        [.enqueue w threadPoolExecutor (some 2), .call w],
        List.replicate 4 (.worker backgroundExecutor 0)]
  exact ⟨_, .lastState ⟨fun _ => 1, rfl⟩ schedule, by decide +kernel⟩

end ThreadPools
end Concurrencpp
