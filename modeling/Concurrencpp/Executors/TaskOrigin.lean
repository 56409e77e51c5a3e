import Concurrencpp.Executors.PoolRange

/-!
# Where a pool's tasks come from

The tasks that the workers of a pool hold or have run, and the steps that add to them.

* `Worker.HasHad`: a lemma for each function of a worker.
* `ThreadPool.HasHad.workerStep`: a step of a worker's thread, donations included, brings no task
  into its pool.
* `ThreadPools.step_hasHad`: a step of a call brings a task into the pool that was called, with one
  exception: `enqueue_local` appends to the queue of the worker that the calling thread belongs to,
  in whatever pool.
-/

namespace Concurrencpp

namespace Worker

variable {τ : Type} {w v : Worker τ} {x : τ}

/-- The task is in a queue of the worker, or the worker's thread has begun to run it. -/
def HasHad (w : Worker τ) (x : τ) : Prop :=
  some x ∈ w.privateQueue ∨ some x ∈ w.publicQueue ∨ x ∈ w.executed

/-! ### The tasks of a worker -/

theorem not_hasHad_initial : ¬ (initial : Worker τ).HasHad x := by
  rintro (h | h | h) <;> cases h

theorem HasHad.of_sameQueues (hq : w.SameQueues v) (h : v.HasHad x) : w.HasHad x := by
  unfold HasHad at h
  rw [hq.privateQueue, hq.publicQueue, hq.executed] at h
  exact h

theorem HasHad.of_check {b : Bool} (h : (w.check b).HasHad x) : w.HasHad x := h

theorem HasHad.nextStep (hs : w.NextStep v) (h : v.HasHad x) : w.HasHad x := by
  cases hs with
  | wait _ _ hq | drained _ _ _ hq | enter _ _ _ hq | stop _ _ hq | finish _ _ hq | leave _ _ hq =>
    exact h.of_sameQueues hq
  | swap _ _ _ hprivate hpublic hexecuted =>
    unfold HasHad at h
    rw [hprivate, hpublic, hexecuted] at h
    exact or_left_comm.1 h
  | erase _ _ hprivate hpublic hexecuted =>
    unfold HasHad at h
    rw [hprivate, hpublic, hexecuted] at h
    exact h.imp_left fun h => List.drop_subset _ _ h
  | run _ _ hprivate hpublic hexecuted =>
    unfold HasHad at h
    rw [hprivate, hpublic, hexecuted] at h
    rcases h with h | h | h
    · exact .inl (List.dropLast_subset _ h)
    · exact .inr (.inl h)
    · rcases List.mem_append.1 h with h | h
      · exact .inr (.inr h)
      · rw [Option.mem_toList, Option.join_eq_some_iff] at h
        exact .inl (List.mem_of_getLast? h)

theorem HasHad.give {count : ℕ} (hs : w.give count = some v) (h : v.HasHad x) : w.HasHad x := by
  obtain ⟨moved, -, hprivate, hpublic, hexecuted, -⟩ := give_queues hs
  unfold HasHad at h
  rw [hprivate, hpublic, hexecuted] at h
  refine h.imp_left fun h => ?_
  rcases List.mem_append.1 h with h | h
  · cases List.eq_of_mem_replicate h
  · exact List.drop_subset _ _ h

theorem HasHad.enqueueLocal {tasks : List (Option τ)} (hs : w.enqueueLocal tasks = some v)
    (h : v.HasHad x) : w.HasHad x ∨ some x ∈ tasks := by
  obtain ⟨-, rfl⟩ := enqueueLocal_eq_some hs
  rcases h with h | h
  · exact (List.mem_append.1 h).imp_left .inl
  · exact .inl (.inr h)

theorem HasHad.enqueueForeign {tasks : List (Option τ)} {r : Worker τ × EnqueuerPc}
    (hs : w.enqueueForeign tasks = some r) (h : r.1.HasHad x) : w.HasHad x ∨ some x ∈ tasks := by
  obtain ⟨hprivate, hpublic, hexecuted⟩ := enqueueForeign_queues hs
  unfold HasHad at h
  rw [hprivate, hpublic, hexecuted] at h
  rcases h with h | h | h
  · exact .inl (.inl h)
  · exact (List.mem_append.1 h).imp_left fun h => .inr (.inl h)
  · exact .inl (.inr (.inr h))

theorem HasHad.shutdownStep {pc : ShutdownPc} {r : Worker τ × ShutdownPc}
    (hs : w.shutdownStep pc = some r) (h : r.1.HasHad x) : w.HasHad x := by
  by_cases hpc : pc = .clear
  · subst hpc
    cases shutdownStep_cases hs
    rcases h with h | h | h
    · cases h
    · cases h
    · exact .inr (.inr h)
  · exact h.of_sameQueues (shutdownStep_sameQueues hpc hs)

end Worker

namespace ThreadPool

variable {τ : Type} {pool pool' : ThreadPool τ} {i : ℕ} {x : τ}

/-- One of the workers has had the task. -/
def HasHad (pool : ThreadPool τ) (x : τ) : Prop := ∃ i, (pool.workers i).HasHad x

/-! ### The tasks of a pool -/

theorem HasHad.setWorker {p : ThreadPool τ} {w : Worker τ} (h : (p.setWorker i w).HasHad x) :
    w.HasHad x ∨ p.HasHad x := by
  obtain ⟨j, hj⟩ := h
  rcases eq_or_ne j i with rfl | hne
  · exact .inl (by simpa [ThreadPool.setWorker] using hj)
  · exact .inr ⟨j, by simpa [ThreadPool.setWorker, hne] using hj⟩

theorem HasHad.of_setWorker {p : ThreadPool τ} {w : Worker τ} (h : (p.setWorker i w).HasHad x)
    (hw : w.HasHad x → p.HasHad x) : p.HasHad x :=
  h.setWorker.elim hw id

theorem mem_of_mem_range {α : Type} {c : Cut} {tasks : List α} {a : α} (h : a ∈ c.range tasks) :
    a ∈ tasks :=
  List.drop_subset _ _ (List.take_subset _ _ h)

/-- A step of a worker's thread brings no task into its pool: what a worker donates, it has. -/
theorem HasHad.workerStep (hs : WorkerStep pool i pool') (h : pool'.HasHad x) : pool.HasHad x := by
  cases hs with
  | mark | search | seek => exact h
  | found => exact HasHad.of_setWorker (p := pool) h fun h => ⟨i, h⟩
  | refused _ _ hv =>
    refine HasHad.of_setWorker (p := pool) h fun h => ?_
    exact ⟨i, (h.of_sameQueues (Worker.throw_sameQueues hv)).of_check⟩
  | @donate target _ _ _ v _ _ _ hv hw =>
    have hmid : (pool.setWorker target v).HasHad x :=
      HasHad.of_setWorker (p := pool.setWorker target v) h fun h => ⟨i, (h.give hw).of_check⟩
    refine hmid.of_setWorker fun h => ?_
    rcases h.enqueueForeign hv with h | h
    · exact ⟨target, h⟩
    · exact ⟨i, .inl (mem_of_mem_range h)⟩
  | donated _ hr =>
    refine HasHad.of_setWorker (p := pool) h fun h => ?_
    exact ⟨_, h.of_sameQueues (Worker.enqueuerStep_sameQueues hr)⟩
  | next _ _ hv =>
    refine HasHad.of_setWorker (p := pool) h fun h => ?_
    exact ⟨i, (h.nextStep (Worker.nextStep_cases hv)).of_check⟩

end ThreadPool

namespace ThreadPools

variable {P τ : Type} [DecidableEq P] {s u : ThreadPools P τ} {t : Thread P} {p q : P} {x : P × τ}

/-! ### Where a task comes from -/

/-- In `u` a pool has had the tasks that it has had in `s`, tasks that were given to it, and tasks
that the thread `t` of the pool was about to enqueue locally. -/
def Brings (s u : ThreadPools P τ) (t : Thread P) : Prop :=
  ∀ q x, (u.pools q).HasHad x → (s.pools q).HasHad x ∨ x.1 = q ∨
    ∃ j tasks, t = .worker q j ∧ s.calls t = .enqueueLocal x.1 tasks ∧ some x.2 ∈ tasks

theorem hasHad_setPool {pool : ThreadPool (P × τ)} (h : ((s.setPool p pool).pools q).HasHad x) :
    q = p ∧ pool.HasHad x ∨ (s.pools q).HasHad x := by
  rcases eq_or_ne q p with rfl | hne
  · exact .inl ⟨rfl, by simpa [setPool] using h⟩
  · exact .inr (by simpa [setPool, hne] using h)

theorem hasHad_of_setPool {pool : ThreadPool (P × τ)} (h : ((s.setPool p pool).pools q).HasHad x)
    (hpool : pool.HasHad x → (s.pools p).HasHad x) : (s.pools q).HasHad x := by
  rcases hasHad_setPool h with ⟨rfl, hx⟩ | hx
  · exact hpool hx
  · exact hx

theorem hasHad_setWorker {i : ℕ} {w : Worker (P × τ)} (h : ((s.setWorker p i w).pools q).HasHad x) :
    q = p ∧ w.HasHad x ∨ (s.pools q).HasHad x := by
  rcases hasHad_setPool h with ⟨rfl, h⟩ | h
  · exact h.setWorker.imp_left fun h => ⟨rfl, h⟩
  · exact .inr h

omit [DecidableEq P] in
theorem eq_of_mem_given {tasks : List (Option τ)} (h : some x ∈ given p tasks) :
    x.1 = p ∧ some x.2 ∈ tasks := by
  obtain ⟨task, htask, hx⟩ := List.mem_map.1 h
  obtain ⟨y, rfl, rfl⟩ := Option.map_eq_some_iff.1 hx
  exact ⟨rfl, htask⟩

theorem brings_callStep (hs : CallStep s t u) : Brings s u t := by
  intro q x h
  cases hs with
  | searched | refusedLocal | refusedForeign | visited => exact .inl h
  | seek | nextWorker => exact .inl (hasHad_of_setPool (s := s) h id)
  | @storedLocal _ tasks this _ hcall hthis hw =>
    rcases hasHad_setWorker (s := s) h with ⟨rfl, hx⟩ | hx
    · rcases hx.enqueueLocal hw with h | h
      · exact .inl ⟨this.2, h⟩
      · obtain ⟨rfl, hmem⟩ := eq_of_mem_given h
        have ht : t = .worker this.1 this.2 := by
          cases t with
          | worker => cases hthis; rfl
          | foreign => cases hthis
        exact .inr (.inr ⟨this.2, tasks, ht, hcall, hmem⟩)
    · exact .inl hx
  | @storedForeign _ index _ _ _ _ _ hw =>
    rcases hasHad_setWorker (s := s) h with ⟨rfl, hx⟩ | hx
    · rcases hx.enqueueForeign hw with h | h
      · exact .inl ⟨index, h⟩
      · exact .inr (.inl (eq_of_mem_given h).1)
    · exact .inl hx
  | enqueued _ hr =>
    refine .inl (hasHad_of_setPool (s := s) h fun h => h.of_setWorker fun h => ?_)
    exact ⟨_, h.of_sameQueues (Worker.enqueuerStep_sameQueues hr)⟩
  | visit _ _ hr =>
    refine .inl (hasHad_of_setPool (s := s) h fun h => h.of_setWorker fun h => ?_)
    exact ⟨_, h.shutdownStep hr⟩

/-- A step brings a task into a pool only if the task was given to this pool, or if a thread of this
pool appends it to its own queue. -/
theorem step_hasHad {m : PoolMove P τ} (hs : s.step m = some u) (h : (u.pools q).HasHad x) :
    (s.pools q).HasHad x ∨ x.1 = q ∨ ∃ j tasks, m = .call (.worker q j) ∧
      s.calls (.worker q j) = .enqueueLocal x.1 tasks ∧ some x.2 ∈ tasks := by
  cases step_cases hs with
  | worker hpool => exact .inl (hasHad_of_setPool h fun h => h.workerStep hpool)
  | timeout => exact .inl (hasHad_of_setPool h fun h => h.of_setWorker fun h => ⟨_, h⟩)
  | throw _ hw =>
    refine .inl (hasHad_of_setPool h fun h => h.of_setWorker fun h => ?_)
    exact ⟨_, h.of_sameQueues (Worker.throw_sameQueues hw)⟩
  | enqueue | enqueueSpan | joinThrows => exact .inl h
  | shutdown => exact .inl (hasHad_of_setPool (s := s) h id)
  | call hs =>
    rcases brings_callStep hs q x h with h | h | ⟨j, tasks, rfl, hcall, hmem⟩
    · exact .inl h
    · exact .inr (.inl h)
    · exact .inr (.inr ⟨j, tasks, rfl, hcall, hmem⟩)

end ThreadPools
end Concurrencpp
