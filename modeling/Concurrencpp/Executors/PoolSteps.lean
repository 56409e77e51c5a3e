import Concurrencpp.Executors.ThreadPool

/-!
# What a step does to a pool

* `Worker.NextStep`: the thread of a worker and its queues.
* `ThreadPool.WorkerStep`: the thread of a worker in its pool, with one constructor for each thing
  that it can do.
* `ThreadPool.PoolStep`: everything that can happen to one pool: its threads, the calls that are
  made on it, and the calls that its threads make.
* `ThreadPools.CallStep`: the next step of a call, with one constructor for each of its outcomes.
* `ThreadPools.step_pool`: in a step of all pools, each pool takes such a step.
-/

namespace Concurrencpp

/-- The thread is in `drain_queue`, up to the swap of the queues. -/
def WorkerPc.waits : WorkerPc → Bool
  | .lock | .markIdle | .acquire | .loadFound | .relock | .markActive | .timedOut => true
  | _ => false

namespace Worker

variable {τ : Type} {w v : Worker τ}

/-- The queues, and what the thread has run. -/
structure SameQueues (w v : Worker τ) : Prop where
  privateQueue : v.privateQueue = w.privateQueue
  publicQueue : v.publicQueue = w.publicQueue
  executed : v.executed = w.executed

theorem throw_sameQueues (hs : w.throw = some v) : w.SameQueues v := by
  unfold throw at hs
  split at hs <;> cases hs <;> exact ⟨rfl, rfl, rfl⟩

theorem enqueuerStep_sameQueues {pc : EnqueuerPc} {r : Worker τ × EnqueuerPc}
    (hs : w.enqueuerStep pc = some r) : w.SameQueues r.1 := by
  cases pc <;> cases hs <;> exact ⟨rfl, rfl, rfl⟩

theorem enqueueForeign_queues {tasks : List (Option τ)} {r : Worker τ × EnqueuerPc}
    (hs : w.enqueueForeign tasks = some r) : r.1.privateQueue = w.privateQueue ∧
      r.1.publicQueue = w.publicQueue ++ tasks ∧ r.1.executed = w.executed := by
  cases enqueueForeign_accepts hs <;> exact ⟨rfl, rfl, rfl⟩

theorem give_queues {count : ℕ} (hs : w.give count = some v) :
    ∃ moved, w.pc = .balance moved ∧
      v.privateQueue = List.replicate (moved + count) none ++ w.privateQueue.drop (moved + count) ∧
      v.publicQueue = w.publicQueue ∧ v.executed = w.executed ∧
      v.pc = .balance (moved + count) := by
  unfold give at hs
  split at hs
  case h_1 moved hpc =>
    split_ifs at hs
    cases hs
    exact ⟨moved, hpc, rfl, rfl, rfl, rfl⟩
  case h_2 => cases hs

/-- The shutdown of a worker touches the queues only to clear them. -/
theorem shutdownStep_sameQueues {pc : ShutdownPc} {r : Worker τ × ShutdownPc} (hpc : pc ≠ .clear)
    (hs : w.shutdownStep pc = some r) : w.SameQueues r.1 := by
  cases shutdownStep_cases hs with
  | clear => exact absurd rfl hpc
  | _ => exact ⟨rfl, rfl, rfl⟩

/-- What the next step of the thread does to its queues. -/
inductive NextStep (w v : Worker τ) : Prop
  | wait (hpc : w.pc.waits = true) (hpc' : v.pc.waits = true ∨ v.pc = .stopped)
      (hq : w.SameQueues v)
  | swap (hpc : w.pc = .lock ∨ w.pc = .markActive) (habort : w.abort = false) (hpc' : v.pc = .loop)
      (hprivate : v.privateQueue = w.publicQueue) (hpublic : v.publicQueue = w.privateQueue)
      (hexecuted : v.executed = w.executed)
  | drained (hpc : w.pc = .loop) (hempty : w.privateQueue = []) (hpc' : v.pc = .lock)
      (hq : w.SameQueues v)
  | enter (hpc : w.pc = .loop) (hne : w.privateQueue ≠ []) (hpc' : v.pc = .balance 0)
      (hq : w.SameQueues v)
  | erase {moved : ℕ} (hpc : w.pc = .balance moved) (hpc' : v.pc = .checkAbort)
      (hprivate : v.privateQueue = w.privateQueue.drop moved)
      (hpublic : v.publicQueue = w.publicQueue) (hexecuted : v.executed = w.executed)
  | stop (hpc : w.pc = .checkAbort) (hpc' : v.pc = .aborted) (hq : w.SameQueues v)
  | run (hpc : w.pc = .checkAbort) (hpc' : v.pc = .running)
      (hprivate : v.privateQueue = w.privateQueue.dropLast)
      (hpublic : v.publicQueue = w.publicQueue)
      (hexecuted : v.executed = w.executed ++ w.privateQueue.getLast?.join.toList)
  | finish (hpc : w.pc = .running) (hpc' : v.pc = .loop) (hq : w.SameQueues v)
  | leave (hpc : w.pc = .aborted ∨ w.pc = .caught) (hpc' : v.pc = .stopped) (hq : w.SameQueues v)

theorem takeQueue_cases (hpc : w.pc = .lock ∨ w.pc = .markActive) : w.NextStep w.takeQueue := by
  unfold takeQueue
  dsimp only
  split_ifs with habort
  · refine .wait ?_ (.inr rfl) ⟨rfl, rfl, rfl⟩
    rcases hpc with hpc | hpc <;> rw [hpc] <;> rfl
  · exact .swap hpc (Bool.eq_false_iff.2 habort) rfl rfl rfl rfl

theorem nextStep_cases (hs : w.nextStep = some v) : w.NextStep v := by
  cases hpc : w.pc <;> simp only [nextStep, hpc] at hs
  case stopped => cases hs
  case lock =>
    split_ifs at hs <;> cases hs
    · exact takeQueue_cases (.inl hpc)
    · exact .wait (by rw [hpc]; rfl) (.inl rfl) ⟨rfl, rfl, rfl⟩
  case markIdle =>
    cases hs
    exact .wait (by rw [hpc]; rfl) (.inl rfl) ⟨rfl, rfl, rfl⟩
  case acquire =>
    split_ifs at hs
    cases hs
    exact .wait (by rw [hpc]; rfl) (.inl rfl) ⟨rfl, rfl, rfl⟩
  case loadFound =>
    cases hs
    refine .wait (by rw [hpc]; rfl) (.inl ?_) ⟨rfl, rfl, rfl⟩
    change WorkerPc.waits (ite _ _ _) = true
    split_ifs <;> rfl
  case relock =>
    split_ifs at hs <;> cases hs
    · exact .wait (by rw [hpc]; rfl) (.inl rfl) ⟨rfl, rfl, rfl⟩
    · exact .wait (by rw [hpc]; rfl) (.inr rfl) ⟨rfl, rfl, rfl⟩
    · exact .wait (by rw [hpc]; rfl) (.inl rfl) ⟨rfl, rfl, rfl⟩
  case markActive =>
    cases hs
    exact takeQueue_cases (.inr hpc)
  case timedOut =>
    cases hs
    exact .wait (by rw [hpc]; rfl) (.inr rfl) ⟨rfl, rfl, rfl⟩
  case loop =>
    cases hs
    by_cases hempty : w.privateQueue = []
    · exact .drained hpc hempty (if_pos hempty) ⟨rfl, rfl, rfl⟩
    · exact .enter hpc hempty (if_neg hempty) ⟨rfl, rfl, rfl⟩
  case balance =>
    cases hs
    exact .erase hpc rfl rfl rfl rfl
  case checkAbort =>
    split_ifs at hs <;> cases hs
    · exact .stop hpc rfl ⟨rfl, rfl, rfl⟩
    · exact .run hpc rfl rfl rfl rfl
  case running =>
    cases hs
    exact .finish hpc rfl ⟨rfl, rfl, rfl⟩
  case aborted =>
    cases hs
    exact .leave (.inl hpc) rfl ⟨rfl, rfl, rfl⟩
  case caught =>
    cases hs
    exact .leave (.inr hpc) rfl ⟨rfl, rfl, rfl⟩

end Worker

namespace ThreadPool

variable {τ : Type} {pool pool' : ThreadPool τ} {i : ℕ}

/-- The thread comes to the end of a function of the pool, or is in none; its `m_idle_worker_list`
is `list` then. -/
inductive Leaves (pool : ThreadPool τ) (i : ℕ) : List ℕ → Prop
  | outside (hin : pool.inner i = .outside)
      (hbalance : ∀ moved, (pool.workers i).pc = .balance moved →
        (pool.workers i).privateQueue.length < 2 ∨
          min (pool.size - 1) ((pool.workers i).privateQueue.length - 1) = 0) :
      Leaves pool i (pool.idleWorkerLists i)
  | marked (hin : pool.inner i = .add ∨ pool.inner i = .subtract) :
      Leaves pool i (pool.idleWorkerLists i)
  | notFound {q : Search} (hin : pool.inner i = .search q) (hq : q.pc = .done)
      (hlist : pool.idleWorkerLists i ++ q.found = []) : Leaves pool i []
  | donated {cut : Cut} (hin : pool.inner i = .donate [] cut) : Leaves pool i []

/-- The thread of the worker `i` takes a step. -/
inductive WorkerStep (pool : ThreadPool τ) (i : ℕ) : ThreadPool τ → Prop
  | mark {set : IdleWorkerSet} {pc : InnerPc} (hin : pool.inner i = .outside)
      (hset : set.size = pool.size)
      (hpc : (pool.workers i).pc = .markIdle ∧ pc = .add ∨
        (pool.workers i).pc = .markActive ∧ pc = .subtract) :
      WorkerStep pool i ({ pool with idleWorkers := set }.setInner i pc)
  | search {moved : ℕ} (hin : pool.inner i = .outside) (hpc : (pool.workers i).pc = .balance moved)
      (hcount : 2 ≤ (pool.workers i).privateQueue.length) :
      WorkerStep pool i (pool.setInner i (.search (IdleWorkerSet.findIdleWorkers i
        (min (pool.size - 1) ((pool.workers i).privateQueue.length - 1)))))
  | seek {q : Search} (hin : pool.inner i = .search q) (hq : q.pc ≠ .done) :
      WorkerStep pool i ({ pool with idleWorkers := (pool.idleWorkers.searchStep q).1 }.setInner i
        (.search (pool.idleWorkers.searchStep q).2))
  | found {q : Search} {b : Bool} {list : List ℕ} (hin : pool.inner i = .search q)
      (hq : q.pc = .done) (hlist : list = pool.idleWorkerLists i ++ q.found) (hne : list ≠ []) :
      WorkerStep pool i (((pool.setIdleWorkerList i list).setWorker i
        ((pool.workers i).check b)).setInner i
          (.donate list (.init (pool.workers i).privateQueue.length (list.length + 1))))
  | refused {target : ℕ} {targets : List ℕ} {cut : Cut} {b : Bool} {v : Worker τ}
      (hin : pool.inner i = .donate (target :: targets) cut)
      (habort : (pool.workers target).abort = true)
      (hv : ((pool.workers i).check b).throw = some v) :
      WorkerStep pool i ((pool.setWorker i v).setInner i .outside)
  | donate {target : ℕ} {targets : List ℕ} {cut : Cut} {b : Bool} {v w : Worker τ} {pc : EnqueuerPc}
      (hin : pool.inner i = .donate (target :: targets) cut)
      (hv : (pool.workers target).enqueueForeign (cut.grow.range (pool.workers i).privateQueue) =
        some (v, pc))
      (hw : (((pool.setWorker target v).workers i).check b).give (cut.grow.stop - cut.grow.start) =
        some w) :
      WorkerStep pool i (((pool.setWorker target v).setWorker i w).setInner i
        (if pc = .outside then .donate targets cut.grow.next
          else .donated target pc targets cut.grow.next))
  | donated {target : ℕ} {pc : EnqueuerPc} {targets : List ℕ} {cut : Cut}
      {r : Worker τ × EnqueuerPc} (hin : pool.inner i = .donated target pc targets cut)
      (hr : (pool.workers target).enqueuerStep pc = some r) :
      WorkerStep pool i ((pool.setWorker target r.1).setInner i (.donate targets cut))
  | next {set : IdleWorkerSet} {list : List ℕ} {b : Bool} {v : Worker τ}
      (hleave : Leaves pool i list)
      (hset : set.size = pool.size) (hv : ((pool.workers i).check b).nextStep = some v) :
      WorkerStep pool i (((({ pool with idleWorkers := set } : ThreadPool τ).setIdleWorkerList i
        list).setWorker i v).setInner i .outside)

theorem check_true (w : Worker τ) : w.check true = w := by
  cases w
  simp [Worker.check]

theorem setIdleWorkerList_self : pool.setIdleWorkerList i (pool.idleWorkerLists i) = pool := by
  unfold setIdleWorkerList
  rw [Function.update_eq_self]

/-- The end of a function that has left the worker and its list as they were. -/
theorem workerStep_of_next {set : IdleWorkerSet} (hleave : Leaves pool i (pool.idleWorkerLists i))
    (hset : set.size = pool.size) (hs : next { pool with idleWorkers := set } i = some pool') :
    WorkerStep pool i pool' := by
  obtain ⟨v, hv, rfl⟩ := Option.map_eq_some_iff.1 hs
  have hstep := WorkerStep.next (b := true) (v := v) hleave hset (by rw [check_true]; exact hv)
  have hself : ({ pool with idleWorkers := set } : ThreadPool τ).setIdleWorkerList i
      (pool.idleWorkerLists i) = { pool with idleWorkers := set } :=
    setIdleWorkerList_self
  rw [hself] at hstep
  exact hstep

theorem enter_cases (hin : pool.inner i = .outside) (hs : pool.enter i = some pool') :
    WorkerStep pool i pool' := by
  unfold enter at hs
  dsimp only at hs
  split at hs
  next hpc =>
    have hleave : Leaves pool i (pool.idleWorkerLists i) :=
      .outside hin fun moved hm => by rw [hpc] at hm; cases hm
    split_ifs at hs
    · exact workerStep_of_next hleave (pool.idleWorkers.exchange_size i true) hs
    · cases hs
      exact .mark hin (pool.idleWorkers.exchange_size i true) (.inl ⟨hpc, rfl⟩)
  next hpc =>
    have hleave : Leaves pool i (pool.idleWorkerLists i) :=
      .outside hin fun moved hm => by rw [hpc] at hm; cases hm
    split_ifs at hs
    · cases hs
      exact .mark hin (pool.idleWorkers.exchange_size i false) (.inr ⟨hpc, rfl⟩)
    · exact workerStep_of_next hleave (pool.idleWorkers.exchange_size i false) hs
  next moved hpc =>
    unfold balanceWork at hs
    dsimp only at hs
    split_ifs at hs with hfew
    · exact workerStep_of_next (.outside hin fun _ _ => hfew) rfl hs
    · cases hs
      rw [not_or] at hfew
      exact .search hin hpc (not_lt.1 hfew.1)
  next hidle hactive hbalance =>
    exact workerStep_of_next (.outside hin fun moved hm => absurd hm (hbalance moved)) rfl hs

theorem searchStep_cases {q : Search} (hin : pool.inner i = .search q)
    (hs : pool.searchStep i q = some pool') : WorkerStep pool i pool' := by
  unfold searchStep at hs
  dsimp only at hs
  split_ifs at hs with hq hlist
  · rw [hlist] at hs
    obtain ⟨v, hv, rfl⟩ := Option.map_eq_some_iff.1 hs
    exact .next (b := true) (.notFound hin hq hlist) rfl (by rw [check_true]; exact hv)
  · cases hs
    exact .found hin hq rfl hlist
  · cases hs
    exact .seek hin hq

theorem donateStep_cases {target : ℕ} {targets : List ℕ} {cut : Cut}
    (hin : pool.inner i = .donate (target :: targets) cut)
    (hs : pool.donateStep i target targets cut = some pool') : WorkerStep pool i pool' := by
  unfold donateStep at hs
  dsimp only at hs
  split_ifs at hs
  split at hs
  next hnone =>
    obtain ⟨v, hv, rfl⟩ := Option.map_eq_some_iff.1 hs
    exact .refused hin (Worker.abort_of_refuses hnone) hv
  next v pc hv =>
    obtain ⟨w, hw, rfl⟩ := Option.map_eq_some_iff.1 hs
    exact .donate hin hv hw

theorem workerStep_cases (hs : pool.workerStep i = some pool') : WorkerStep pool i pool' := by
  unfold workerStep at hs
  split at hs
  next hin => exact enter_cases hin hs
  next hin => exact workerStep_of_next (.marked (.inl hin)) (pool.idleWorkers.add_size 1) hs
  next hin => exact workerStep_of_next (.marked (.inr hin)) (pool.idleWorkers.add_size (-1)) hs
  next q hin => exact searchStep_cases hin hs
  next cut hin =>
    unfold donationsDone at hs
    dsimp only at hs
    obtain ⟨v, hv, rfl⟩ := Option.map_eq_some_iff.1 hs
    have hworker : ∀ w, ((pool.setWorker i w).setIdleWorkerList i []).workers i = w :=
      fun w => Function.update_self ..
    rw [hworker] at hv
    have hstep : WorkerStep pool i ((((({ pool with idleWorkers := pool.idleWorkers } :
        ThreadPool τ).setIdleWorkerList i []).setWorker i v).setInner i .outside)) :=
      .next (.donated hin) rfl hv
    simpa only [setWorker, setIdleWorkerList, setInner, Function.update_idem] using hstep
  next target targets cut hin => exact donateStep_cases hin hs
  next target pc targets cut hin =>
    obtain ⟨r, hr, rfl⟩ := Option.map_eq_some_iff.1 hs
    exact .donated hin hr

end ThreadPool

namespace Worker

variable {τ : Type}

/-- What happens to a worker outside the steps of its thread in `work_loop`: a timeout, an exception
out of the task that it runs, and the calls. -/
inductive OtherStep (w : Worker τ) : Worker τ → Prop
  | timeout {v : Worker τ} (hv : w.threadStep .timeout = some v) : OtherStep w v
  | throw {v : Worker τ} (hpc : w.pc = .running) (hv : w.threadStep .throw = some v) : OtherStep w v
  | enqueueLocal {v : Worker τ} {tasks : List (Option τ)} (hv : w.enqueueLocal tasks = some v) :
      OtherStep w v
  | enqueueForeign {r : Worker τ × EnqueuerPc} {tasks : List (Option τ)}
      (hr : w.enqueueForeign tasks = some r) : OtherStep w r.1
  | enqueuer {r : Worker τ × EnqueuerPc} {pc : EnqueuerPc} (hr : w.enqueuerStep pc = some r) :
      OtherStep w r.1
  | shutdown {r : Worker τ × ShutdownPc} {pc : ShutdownPc} (hclear : pc = .clear → w.pc = .stopped)
      (hr : w.shutdownStep pc = some r) : OtherStep w r.1

end Worker

namespace ThreadPool

variable {τ : Type}

/-- Everything that can happen to a pool; `thread` says which of its threads may take a step. -/
inductive PoolStep (thread : ℕ → Prop) (pool : ThreadPool τ) : ThreadPool τ → Prop
  | same {pool' : ThreadPool τ} (hworkers : pool'.workers = pool.workers)
      (hinner : pool'.inner = pool.inner) (hlists : pool'.idleWorkerLists = pool.idleWorkerLists)
      (hsize : pool'.size = pool.size) : PoolStep thread pool pool'
  | thread {pool' : ThreadPool τ} {i : ℕ} (hi : thread i) (hs : WorkerStep pool i pool') :
      PoolStep thread pool pool'
  | other {i : ℕ} {v : Worker τ} (hv : (pool.workers i).OtherStep v) :
      PoolStep thread pool (pool.setWorker i v)

end ThreadPool

namespace ThreadPools

variable {P τ : Type} [DecidableEq P] {s u : ThreadPools P τ} {t : Thread P} {p q : P}

open ThreadPool

omit [DecidableEq P] in
theorem calls_of_mayCall (hmay : s.mayCall t = true) : s.calls t = .outside := by
  unfold mayCall at hmay
  split at hmay
  · assumption
  · assumption
  · cases hmay

/-- A call clears the queues of a worker only when its thread has stopped. -/
def ClearsStopped (s : ThreadPools P τ) : Prop :=
  ∀ t p i, s.calls t = .shutdown p i .clear → (s.worker p i).pc = .stopped

variable {thread : ℕ → Prop}

theorem poolStep_refl {pool : ThreadPool τ} : PoolStep thread pool pool :=
  .same rfl rfl rfl rfl

/-- One pool changes. -/
theorem poolStep_setPool {pool : ThreadPool (P × τ)}
    (h : q = p → PoolStep thread (s.pools p) pool) :
    PoolStep thread (s.pools q) ((s.setPool p pool).pools q) := by
  change PoolStep thread (s.pools q) (Function.update s.pools p pool q)
  by_cases hqp : q = p
  · subst hqp
    rw [Function.update_self]
    exact h rfl
  · rw [Function.update_of_ne hqp]
    exact poolStep_refl

theorem poolStep_setWorker {i : ℕ} {v : Worker (P × τ)} (hv : (s.worker p i).OtherStep v) :
    PoolStep thread (s.pools q) ((s.setWorker p i v).pools q) :=
  poolStep_setPool fun _ => .other hv

/-- The next step of the call that the thread `t` is in. -/
inductive CallStep (s : ThreadPools P τ) (t : Thread P) : ThreadPools P τ → Prop
  | searched {p : P} {task : Option τ} {rest : List (Option τ)} {search : Search}
      (hcall : s.calls t = .find p task rest search) (hsearch : search.pc = .done) :
      CallStep s t (s.setCall t (searched t p task rest search.found))
  | seek {p : P} {task : Option τ} {rest : List (Option τ)} {search : Search}
      (hcall : s.calls t = .find p task rest search) (hsearch : search.pc ≠ .done) :
      CallStep s t ((s.setPool p { s.pools p with
        idleWorkers := ((s.pools p).idleWorkers.searchStep search).1 }).setCall t
          (.find p task rest ((s.pools p).idleWorkers.searchStep search).2))
  | nextWorker {p : P} {task : Option τ} {rest : List (Option τ)}
      (hcall : s.calls t = .nextWorker p task rest) (hsize : (s.pools p).size ≠ 0) :
      CallStep s t ((s.setPool p { s.pools p with
        roundRobinCursor := ((s.pools p).roundRobinCursor + 1) % 2 ^ 64 }).setCall t
          (.enqueueForeign p ((s.pools p).roundRobinCursor % (s.pools p).size) [task] (.each rest)))
  | storedLocal {p : P} {tasks : List (Option τ)} {this : P × ℕ} {w : Worker (P × τ)}
      (hcall : s.calls t = .enqueueLocal p tasks) (hthis : t.thisWorker = some this)
      (hw : (s.worker this.1 this.2).enqueueLocal (given p tasks) = some w) :
      CallStep s t ((s.setWorker this.1 this.2 w).setCall t .outside)
  | refusedLocal {p : P} {tasks : List (Option τ)} {this : P × ℕ}
      (hcall : s.calls t = .enqueueLocal p tasks) (hthis : t.thisWorker = some this)
      (hw : (s.worker this.1 this.2).enqueueLocal (given p tasks) = none) :
      CallStep s t (s.setCall t .outside)
  | storedForeign {p : P} {index : ℕ} {tasks : List (Option τ)} {rest : Rest τ} {w : Worker (P × τ)}
      {pc : EnqueuerPc} (hcall : s.calls t = .enqueueForeign p index tasks rest)
      (hw : (s.worker p index).enqueueForeign (given p tasks) = some (w, pc)) :
      CallStep s t ((s.setWorker p index w).setCall t
        (if pc = .outside then s.resume t p rest else .enqueued p index pc rest))
  | refusedForeign {p : P} {index : ℕ} {tasks : List (Option τ)} {rest : Rest τ}
      (hcall : s.calls t = .enqueueForeign p index tasks rest)
      (hw : (s.worker p index).enqueueForeign (given p tasks) = none) :
      CallStep s t (s.setCall t .outside)
  | enqueued {p : P} {index : ℕ} {pc : EnqueuerPc} {rest : Rest τ} {r : Worker (P × τ) × EnqueuerPc}
      (hcall : s.calls t = .enqueued p index pc rest)
      (hr : (s.worker p index).enqueuerStep pc = some r) :
      CallStep s t ((s.setWorker p index r.1).setCall t (s.resume t p rest))
  | visit {p : P} {i : ℕ} {pc : ShutdownPc} {r : Worker (P × τ) × ShutdownPc}
      (hcall : s.calls t = .shutdown p i pc) (hi : i < (s.pools p).size)
      (hr : (s.worker p i).shutdownStep pc = some r) :
      CallStep s t ((s.setWorker p i r.1).setCall t
        (if r.2 = .done then .shutdown p (i + 1) .before else .shutdown p i r.2))
  | visited {p : P} {i : ℕ} {pc : ShutdownPc} (hcall : s.calls t = .shutdown p i pc)
      (hi : (s.pools p).size ≤ i) : CallStep s t (s.setCall t .outside)

theorem callStep_cases (hs : s.callStep t = some u) : CallStep s t u := by
  cases hcall : s.calls t with
  | outside =>
    simp only [callStep, hcall] at hs
    cases hs
  | find =>
    simp only [callStep, hcall, findStep] at hs
    split_ifs at hs with hsearch
    · cases hs
      exact .searched hcall hsearch
    · cases hs
      exact .seek hcall hsearch
  | nextWorker =>
    simp only [callStep, hcall, nextWorkerStep] at hs
    split_ifs at hs with hsize
    cases hs
    exact .nextWorker hcall hsize
  | enqueueLocal =>
    simp only [callStep, hcall] at hs
    obtain ⟨this, hthis, rfl⟩ := Option.map_eq_some_iff.1 hs
    split
    next w hw => exact .storedLocal hcall hthis hw
    next hw => exact .refusedLocal hcall hthis hw
  | enqueueForeign =>
    simp only [callStep, hcall, enqueueForeignStep] at hs
    split_ifs at hs
    split at hs
    next w pc hw =>
      cases hs
      exact .storedForeign hcall hw
    next hw =>
      cases hs
      exact .refusedForeign hcall hw
  | enqueued =>
    simp only [callStep, hcall] at hs
    obtain ⟨r, hr, rfl⟩ := Option.map_eq_some_iff.1 hs
    exact .enqueued hcall hr
  | shutdown =>
    simp only [callStep, hcall, shutdownStep] at hs
    split_ifs at hs with hi
    · obtain ⟨r, hr, rfl⟩ := Option.map_eq_some_iff.1 hs
      exact .visit hcall hi hr
    · cases hs
      exact .visited hcall (not_lt.1 hi)

/-- The pools in a step of a call. -/
theorem callStep_pool (h : s.ClearsStopped) (hs : CallStep s t u) :
    PoolStep thread (s.pools q) (u.pools q) := by
  cases hs with
  | searched | refusedLocal | refusedForeign | visited => exact poolStep_refl
  | seek =>
    exact poolStep_setPool fun _ => .same rfl rfl rfl (IdleWorkerSet.searchStep_size _ _)
  | nextWorker => exact poolStep_setPool fun _ => .same rfl rfl rfl rfl
  | storedLocal _ _ hw => exact poolStep_setWorker (.enqueueLocal hw)
  | storedForeign _ hw => exact poolStep_setWorker (.enqueueForeign hw)
  | enqueued _ hr => exact poolStep_setWorker (.enqueuer hr)
  | @visit p i _ _ hcall _ hr =>
    refine poolStep_setWorker (.shutdown (fun hpc => ?_) hr)
    subst hpc
    exact h t p i hcall

/-- A step of all pools, by the thread that takes it. -/
inductive Step (s : ThreadPools P τ) : PoolMove P τ → ThreadPools P τ → Prop
  | worker {p : P} {i : ℕ} {pool : ThreadPool (P × τ)} (hpool : WorkerStep (s.pools p) i pool) :
      Step s (.worker p i) (s.setPool p pool)
  | timeout {p : P} {i : ℕ} (hpc : (s.worker p i).pc = .acquire) :
      Step s (.timeout p i) (s.setWorker p i ((s.worker p i).goto .timedOut))
  | throw {p : P} {i : ℕ} {w : Worker (P × τ)} (hpc : (s.worker p i).pc = .running)
      (hw : (s.worker p i).throw = some w) : Step s (.throw p i) (s.setWorker p i w)
  | enqueue {t : Thread P} {p : P} {task : Option τ} (hmay : s.mayCall t = true) :
      Step s (.enqueue t p task) (s.setCall t (s.enqueue t p task))
  | enqueueSpan {t : Thread P} {p : P} {tasks : List (Option τ)} {c : Call P τ}
      (hmay : s.mayCall t = true) (hc : s.enqueueSpan t p tasks = some c) :
      Step s (.enqueueSpan t p tasks) (s.setCall t c)
  | shutdown {t : Thread P} {p : P} (hmay : s.mayCall t = true) :
      Step s (.shutdown t p) ((s.setPool p { s.pools p with abort := true }).setCall t
        (if (s.pools p).abort then .outside else .shutdown p 0 .before))
  | call {t : Thread P} {u : ThreadPools P τ} (hs : CallStep s t u) : Step s (.call t) u
  | joinThrows {t : Thread P} {p : P} {i : ℕ} (hcall : s.calls t = .shutdown p i .join) :
      Step s (.joinThrows t) (s.setCall t .outside)

theorem step_cases {m : PoolMove P τ} (hs : s.step m = some u) : Step s m u := by
  cases m with
  | worker =>
    simp only [step] at hs
    split_ifs at hs
    obtain ⟨pool, hpool, rfl⟩ := Option.map_eq_some_iff.1 hs
    exact .worker (workerStep_cases hpool)
  | timeout =>
    obtain ⟨pool, hpool, rfl⟩ := Option.map_eq_some_iff.1 hs
    obtain ⟨v, hv, rfl⟩ := Option.map_eq_some_iff.1 hpool
    simp only [Worker.threadStep] at hv
    split_ifs at hv with hpc
    cases hv
    exact .timeout hpc
  | throw =>
    simp only [step] at hs
    split_ifs at hs
    obtain ⟨pool, hpool, rfl⟩ := Option.map_eq_some_iff.1 hs
    unfold ThreadPool.throw at hpool
    split_ifs at hpool with hpc
    obtain ⟨v, hv, rfl⟩ := Option.map_eq_some_iff.1 hpool
    exact .throw hpc hv
  | enqueue =>
    simp only [step] at hs
    split_ifs at hs with hmay
    cases hs
    exact .enqueue hmay
  | enqueueSpan =>
    simp only [step] at hs
    split_ifs at hs with hmay
    obtain ⟨c, hc, rfl⟩ := Option.map_eq_some_iff.1 hs
    exact .enqueueSpan hmay hc
  | shutdown =>
    simp only [step] at hs
    split at hs
    case isFalse => cases hs
    case isTrue hmay =>
      cases hs
      exact .shutdown hmay
  | call => exact .call (callStep_cases hs)
  | joinThrows =>
    simp only [step, joinThrows] at hs
    split at hs
    next hcall =>
      cases hs
      exact .joinThrows hcall
    next => cases hs

/-- In a step of all pools, each pool takes a step; its own threads only when it is their turn. -/
theorem step_pool {m : PoolMove P τ} (h : s.ClearsStopped) (hs : s.step m = some u) :
    PoolStep (fun i => m = .worker q i) (s.pools q) (u.pools q) := by
  cases step_cases hs with
  | worker hpool =>
    refine poolStep_setPool fun hqp => .thread ?_ hpool
    rw [hqp]
  | timeout hpc => exact poolStep_setWorker (.timeout (if_pos hpc))
  | throw hpc hw => exact poolStep_setWorker (.throw hpc hw)
  | enqueue | enqueueSpan | joinThrows => exact poolStep_refl
  | shutdown => exact poolStep_setPool fun _ => .same rfl rfl rfl rfl
  | call hs => exact callStep_pool h hs

end ThreadPools
end Concurrencpp
