import Concurrencpp.Executors.PoolSteps

/-!
# The workers of a pool

The indices that a pool computes are indices of its workers.  A worker is an index below the size of
its pool, and what lies beyond is never touched: `ThreadPool.InRange` for one pool,
`ThreadPools.InRange` for all of them and the calls that are being made.

* `ThreadPool.InRange.workerStep`: a step of a worker's thread.
* `ThreadPools.InRange.callStep`: a step of a call.
* `ThreadPools.inRange_of_reachable`: every run.
-/

namespace Concurrencpp

namespace ThreadPool

variable {τ : Type} {pool pool' : ThreadPool τ} {i : ℕ}

/-- The indices that the thread of a worker holds are indices of workers. -/
def InnerOk (size : ℕ) : InnerPc → Prop
  | .search q => IdleWorkerSet.SearchOk size q
  | .donate targets _ => ∀ j ∈ targets, j < size
  | .donated target _ targets _ => target < size ∧ ∀ j ∈ targets, j < size
  | .outside | .add | .subtract => True

/-- Beyond its size a pool has nothing, and its threads hold indices of its workers. -/
structure InRange (pool : ThreadPool τ) : Prop where
  workers : ∀ i, pool.size ≤ i → pool.workers i = .initial
  lists : ∀ i, ∀ j ∈ pool.idleWorkerLists i, j < pool.size
  active : ∀ i, pool.size ≤ i → pool.inner i = .outside
  inner : ∀ i, InnerOk pool.size (pool.inner i)

theorem inRange_initial (size : ℕ) : (initial size : ThreadPool τ).InRange where
  workers := fun _ _ => rfl
  lists := fun _ _ hj => absurd hj List.not_mem_nil
  active := fun _ _ => rfl
  inner := fun _ => trivial

/-! ### The setters -/

theorem InRange.lt_of_pc (h : pool.InRange) (hpc : (pool.workers i).pc ≠ .stopped) :
    i < pool.size := by
  by_contra hi
  exact hpc (by rw [h.workers i (not_lt.1 hi)]; rfl)

theorem InRange.lt_of_inner (h : pool.InRange) (hpc : pool.inner i ≠ .outside) : i < pool.size := by
  by_contra hi
  exact hpc (h.active i (not_lt.1 hi))

theorem InRange.setWorker (h : pool.InRange) (hi : i < pool.size) (w : Worker τ) :
    (pool.setWorker i w).InRange where
  workers := fun j hj => by
    have hne : j ≠ i := fun hji => absurd hj (not_le.2 (hji ▸ hi))
    exact (Function.update_of_ne hne _ _).trans (h.workers j hj)
  lists := h.lists
  active := h.active
  inner := h.inner

theorem InRange.setInner (h : pool.InRange) (hi : i < pool.size) {pc : InnerPc}
    (hpc : InnerOk pool.size pc) : (pool.setInner i pc).InRange where
  workers := h.workers
  lists := h.lists
  active := fun j hj => by
    have hne : j ≠ i := fun hji => absurd hj (not_le.2 (hji ▸ hi))
    exact (Function.update_of_ne hne _ _).trans (h.active j hj)
  inner := fun j => by
    rcases eq_or_ne j i with rfl | hne
    · simpa [ThreadPool.setInner, size] using hpc
    · simpa [ThreadPool.setInner, size, Function.update_of_ne hne] using h.inner j

theorem InRange.setIdleWorkerList (h : pool.InRange) {list : List ℕ}
    (hlist : ∀ j ∈ list, j < pool.size) : (pool.setIdleWorkerList i list).InRange where
  workers := h.workers
  lists := fun k => by
    rcases eq_or_ne k i with rfl | hne
    · simpa [ThreadPool.setIdleWorkerList, size] using hlist
    · simpa [ThreadPool.setIdleWorkerList, size, Function.update_of_ne hne] using h.lists k
  active := h.active
  inner := h.inner

theorem InRange.setIdleWorkers (h : pool.InRange) {set : IdleWorkerSet}
    (hset : set.size = pool.size) : InRange { pool with idleWorkers := set } where
  workers := fun j hj => h.workers j (hset ▸ hj)
  lists := fun j k hk => (h.lists j k hk).trans_eq hset.symm
  active := fun j hj => h.active j (hset ▸ hj)
  inner := fun j => show InnerOk set.size _ from hset.symm ▸ h.inner j

theorem InRange.setCursor (h : pool.InRange) (cursor : ℕ) :
    InRange { pool with roundRobinCursor := cursor } :=
  ⟨h.workers, h.lists, h.active, h.inner⟩

theorem InRange.setAbort (h : pool.InRange) (abort : Bool) : InRange { pool with abort := abort } :=
  ⟨h.workers, h.lists, h.active, h.inner⟩

/-! ### The thread of a worker -/

/-- The list that a function of the pool leaves behind. -/
theorem InRange.leaves {list : List ℕ} (h : pool.InRange) (hleave : Leaves pool i list) :
    ∀ j ∈ list, j < pool.size := by
  cases hleave with
  | outside | marked => exact h.lists i
  | notFound | donated => exact fun j hj => absurd hj List.not_mem_nil

theorem nextStep_pc {w v : Worker τ} {b : Bool} (hs : (w.check b).nextStep = some v) :
    w.pc ≠ .stopped := by
  intro hpc
  simp [Worker.nextStep, Worker.check, hpc] at hs

theorem InRange.workerStep (h : pool.InRange) (hs : WorkerStep pool i pool') :
    pool'.InRange ∧ pool'.size = pool.size := by
  have hin := h.inner i
  have hi : pool.inner i ≠ .outside → i < pool.size := h.lt_of_inner
  cases hs with
  | mark _ hset hpc =>
    have hlt : i < pool.size :=
      h.lt_of_pc (by rcases hpc with ⟨hpc, -⟩ | ⟨hpc, -⟩ <;> rw [hpc] <;> nofun)
    refine ⟨(h.setIdleWorkers hset).setInner (hlt.trans_eq hset.symm) ?_, hset⟩
    rcases hpc with ⟨-, rfl⟩ | ⟨-, rfl⟩ <;> trivial
  | search _ hpc =>
    exact ⟨h.setInner (h.lt_of_pc (by rw [hpc]; nofun)) (IdleWorkerSet.SearchOk.start rfl rfl), rfl⟩
  | @seek q hsearch =>
    rw [hsearch] at hin hi
    have hsize := pool.idleWorkers.searchStep_size q
    refine ⟨(h.setIdleWorkers hsize).setInner ((hi nofun).trans_eq hsize.symm) ?_, hsize⟩
    show IdleWorkerSet.SearchOk (pool.idleWorkers.searchStep q).1.size _
    rw [hsize]
    exact IdleWorkerSet.SearchOk.searchStep hin
  | @found _ _ list hsearch _ hlist =>
    rw [hsearch] at hin hi
    -- the stale list and what the search has found
    have hall : ∀ j ∈ list, j < pool.size := by
      intro j hj
      rw [hlist] at hj
      exact (List.mem_append.1 hj).elim (h.lists i j) (IdleWorkerSet.SearchOk.found_lt hin j)
    exact ⟨((h.setIdleWorkerList hall).setWorker (hi nofun) _).setInner (hi nofun) hall, rfl⟩
  | refused hdonate =>
    rw [hdonate] at hi
    exact ⟨(h.setWorker (hi nofun) _).setInner (hi nofun) trivial, rfl⟩
  | @donate target targets _ _ v w _ hdonate =>
    rw [hdonate] at hin hi
    have hall : ∀ j ∈ target :: targets, j < pool.size := hin
    have htarget := hall target List.mem_cons_self
    have htargets : ∀ j ∈ targets, j < pool.size := fun j hj => hall j (List.mem_cons_of_mem _ hj)
    refine ⟨((h.setWorker htarget v).setWorker (hi nofun) w).setInner (hi nofun) ?_, rfl⟩
    split_ifs
    · exact htargets
    · exact ⟨htarget, htargets⟩
  | donated hdonated =>
    rw [hdonated] at hin hi
    exact ⟨(h.setWorker hin.1 _).setInner (hi nofun) hin.2, rfl⟩
  | next hleave hset hv =>
    have hlt := (h.lt_of_pc (nextStep_pc hv)).trans_eq hset.symm
    refine ⟨(((h.setIdleWorkers hset).setIdleWorkerList ?_).setWorker hlt _).setInner hlt trivial,
      hset⟩
    exact fun j hj => (h.leaves hleave j hj).trans_eq hset.symm

end ThreadPool

namespace ThreadPools

variable {P τ : Type} {s u : ThreadPools P τ} {t : Thread P} {p : P}

/-! ### All pools -/

/-- The index that a call holds is the index of a worker of the pool that was called. -/
def CallOk (size : P → ℕ) : Call P τ → Prop
  | .find p _ _ q => IdleWorkerSet.SearchOk (size p) q
  | .enqueueForeign p index _ _ | .enqueued p index _ _ => index < size p
  | .outside | .nextWorker _ _ _ | .enqueueLocal _ _ | .shutdown _ _ _ => True

/-- Pools and calls hold indices of workers. -/
structure InRange (size : P → ℕ) (s : ThreadPools P τ) : Prop where
  size_eq : ∀ p, (s.pools p).size = size p
  pools : ∀ p, (s.pools p).InRange
  calls : ∀ t, CallOk size (s.calls t)

variable {size : P → ℕ}

theorem callOk_findIdleWorker (s : ThreadPools P τ) (t : Thread P) (p : P) (task : Option τ)
    (rest : List (Option τ)) : CallOk size (.find p task rest (s.findIdleWorker t p)) :=
  IdleWorkerSet.SearchOk.start rfl rfl

theorem callOk_enqueue (s : ThreadPools P τ) (t : Thread P) (p : P) (task : Option τ) :
    CallOk size (s.enqueue t p task) := by
  unfold enqueue
  split
  · split_ifs
    · trivial
    · exact callOk_findIdleWorker s t p task []
  · exact callOk_findIdleWorker s t p task []

theorem callOk_enqueueEach (s : ThreadPools P τ) (t : Thread P) (p : P) (tasks : List (Option τ)) :
    CallOk size (s.enqueueEach t p tasks) := by
  cases tasks with
  | nil => trivial
  | cons task rest => exact callOk_findIdleWorker s t p task rest

theorem InRange.enqueueRanges (h : InRange size s) (p : P) (i : ℕ) (cut : Cut)
    (tasks : List (Option τ)) : CallOk size (s.enqueueRanges p i cut tasks) := by
  unfold ThreadPools.enqueueRanges
  split_ifs with hi
  · exact hi.trans_eq (h.size_eq p)
  · trivial

theorem InRange.resume (h : InRange size s) (t : Thread P) (p : P) (rest : Rest τ) :
    CallOk size (s.resume t p rest) := by
  cases rest with
  | each tasks => exact callOk_enqueueEach s t p tasks
  | ranges i cut tasks => exact h.enqueueRanges p i cut tasks

theorem InRange.enqueueSpan (h : InRange size s) {tasks : List (Option τ)} {c : Call P τ}
    (hs : s.enqueueSpan t p tasks = some c) : CallOk size c := by
  unfold ThreadPools.enqueueSpan at hs
  split at hs
  · cases hs
    trivial
  · split_ifs at hs <;> cases hs
    · exact callOk_enqueueEach s t p tasks
    · exact h.enqueueRanges p 0 _ tasks

theorem inRange_initial (size : P → ℕ) : InRange size (initial size : ThreadPools P τ) where
  size_eq := fun _ => rfl
  pools := fun p => ThreadPool.inRange_initial (size p)
  calls := fun _ => trivial

variable [DecidableEq P]

theorem InRange.setPool (h : InRange size s) {pool : ThreadPool (P × τ)}
    (hpool : pool.InRange ∧ pool.size = (s.pools p).size) : InRange size (s.setPool p pool) where
  size_eq := fun q => by
    rcases eq_or_ne q p with rfl | hne
    · simpa [ThreadPools.setPool, hpool.2] using h.size_eq q
    · simpa [ThreadPools.setPool, hne] using h.size_eq q
  pools := fun q => by
    rcases eq_or_ne q p with rfl | hne
    · simpa [ThreadPools.setPool] using hpool.1
    · simpa [ThreadPools.setPool, hne] using h.pools q
  calls := h.calls

theorem InRange.setCall (h : InRange size s) {c : Call P τ} (hc : CallOk size c) :
    InRange size (s.setCall t c) where
  size_eq := h.size_eq
  pools := h.pools
  calls := fun t' => by
    rcases eq_or_ne t' t with rfl | hne
    · simpa [ThreadPools.setCall] using hc
    · simpa [ThreadPools.setCall, hne] using h.calls t'

theorem InRange.setWorker (h : InRange size s) {i : ℕ} (hi : i < size p) (w : Worker (P × τ)) :
    InRange size (s.setWorker p i w) :=
  h.setPool ⟨(h.pools p).setWorker (hi.trans_eq (h.size_eq p).symm) w, rfl⟩

theorem InRange.callStep (h : InRange size s) (hs : CallStep s t u) : InRange size u := by
  have hc := h.calls t
  cases hs with
  | searched hcall =>
    rw [hcall] at hc
    refine h.setCall ?_
    unfold searched
    split
    case h_1 index tail hfound => exact IdleWorkerSet.SearchOk.found_lt hc index (by simp [hfound])
    case h_2 => split <;> trivial
  | @seek p _ _ q hcall =>
    rw [hcall] at hc
    have hsize := (s.pools p).idleWorkers.searchStep_size q
    refine (h.setPool ⟨(h.pools p).setIdleWorkers hsize, hsize⟩).setCall ?_
    have heq : (s.pools p).idleWorkers.size = size p := h.size_eq p
    have hq : IdleWorkerSet.SearchOk (size p) q := hc
    rw [← heq] at hq
    have hstep := hq.searchStep
    rw [heq] at hstep
    exact hstep
  | @nextWorker p _ _ _ hpos =>
    have hp := (h.pools p).setCursor (((s.pools p).roundRobinCursor + 1) % 2 ^ 64)
    refine (h.setPool ⟨hp, rfl⟩).setCall ?_
    exact (Nat.mod_lt _ (Nat.pos_of_ne_zero hpos)).trans_eq (h.size_eq p)
  | @storedLocal _ _ this w _ _ hw =>
    -- the thread runs a task, so its worker is one
    have hpc : (s.worker this.1 this.2).pc = .running := by
      simp only [Worker.enqueueLocal] at hw
      split_ifs at hw with hpc
      exact hpc.1
    have hj : this.2 < (s.pools this.1).size :=
      (h.pools this.1).lt_of_pc
        (by rw [show ((s.pools this.1).workers this.2).pc = _ from hpc]; nofun)
    exact (h.setWorker (hj.trans_eq (h.size_eq this.1)) w).setCall trivial
  | refusedLocal | refusedForeign | visited => exact h.setCall trivial
  | storedForeign hcall =>
    rw [hcall] at hc
    refine (h.setWorker hc _).setCall ?_
    split_ifs
    · exact h.resume t _ _
    · exact hc
  | enqueued hcall =>
    rw [hcall] at hc
    exact (h.setWorker hc _).setCall (h.resume t _ _)
  | visit _ hi =>
    refine (h.setWorker (hi.trans_eq (h.size_eq _)) _).setCall ?_
    split_ifs <;> trivial

theorem InRange.step (h : InRange size s) {m : PoolMove P τ} (hs : s.step m = some u) :
    InRange size u := by
  cases step_cases hs with
  | worker hpool => exact h.setPool ((h.pools _).workerStep hpool)
  | timeout hpc | throw hpc =>
    exact h.setWorker (((h.pools _).lt_of_pc (hpc.trans_ne nofun)).trans_eq (h.size_eq _)) _
  | @enqueue t p task => exact h.setCall (callOk_enqueue s t p task)
  | enqueueSpan _ hc => exact h.setCall (h.enqueueSpan hc)
  | shutdown =>
    refine (h.setPool ⟨(h.pools _).setAbort true, rfl⟩).setCall ?_
    split_ifs <;> trivial
  | call hs => exact h.callStep hs
  | joinThrows => exact h.setCall trivial

/-- Along a run the sizes of the pools stay what they were, and every index is one of a worker. -/
theorem inRange_of_reachable (h : Reachable s) : InRange (fun p => (s.pools p).size) s := by
  have hex : ∃ size, InRange size s := by
    induction h with
    | start hs =>
      obtain ⟨size, rfl⟩ := hs
      exact ⟨size, inRange_initial size⟩
    | next _ _ hs ih =>
      obtain ⟨size, hsize⟩ := ih
      exact ⟨size, hsize.step hs⟩
  obtain ⟨size, hsize⟩ := hex
  rw [show (fun p => (s.pools p).size) = size from funext hsize.size_eq]
  exact hsize

theorem step_size {m : PoolMove P τ} (hr : Reachable s) (hs : s.step m = some u) (p : P) :
    (u.pools p).size = (s.pools p).size :=
  ((inRange_of_reachable hr).step hs).size_eq p

end ThreadPools
end Concurrencpp
