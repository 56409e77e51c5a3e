import Concurrencpp.Executors.BalanceWork

/-!
# The assertions of a worker

The assertions of `drain_queue` and `balance_work` about the private queue and `m_idle_worker_list`.

`work_loop` catches an `errors::runtime_shutdown` and lets the next thread of the worker go on with
what is left.  An exception that leaves `balance_work`, or the running task, and a `m_atomic_abort`
that is seen before `m_abort` is set, can all leave tasks in the private queue of a worker that is
started again.

* `ThreadPools.LeavesNothing`: a thread leaves nothing behind in a worker that may be started again.
* `ThreadPool.AssertionsHold`: the assertions.  They hold where nothing is left behind
  (`ThreadPools.assertionsHold_of_leavesNothing`).
-/

namespace Concurrencpp

open Interleaving

namespace Worker

variable {τ : Type} {w v : Worker τ}

/-- The private queue is empty while the thread waits for tasks; without a thread, so that a new one
may be started, the private queue is empty as well. -/
structure Drained (w : Worker τ) : Prop where
  waits : w.pc.waits = true → w.privateQueue = []
  stopped : w.pc = .stopped → w.privateQueue = [] ∨ w.abort = true

theorem Drained.of_pc (hwaits : w.pc.waits = false) (hstopped : w.pc ≠ .stopped) : w.Drained where
  waits := fun h => absurd h (by simp [hwaits])
  stopped := fun h => absurd h hstopped

theorem Drained.of_empty (hempty : w.privateQueue = []) : w.Drained :=
  ⟨fun _ => hempty, fun _ => .inl hempty⟩

/-- A step that keeps the private queue and the place of the thread. -/
theorem Drained.of_same (h : w.Drained) (hpc : v.pc = w.pc)
    (hqueue : v.privateQueue = w.privateQueue)
    (habort : w.abort = true → v.abort = true) : v.Drained where
  waits := fun hv => hqueue.trans (h.waits (hpc ▸ hv))
  stopped := fun hv => (h.stopped (hpc.symm.trans hv)).imp hqueue.trans habort

theorem Drained.enqueueForeign {tasks : List (Option τ)} {r : Worker τ × EnqueuerPc} (h : w.Drained)
    (hidle : WorkerSystem.IdleOk w) (hs : w.enqueueForeign tasks = some r) : r.1.Drained := by
  have habort := (enqueueForeign_settles hs).abort
  cases enqueueForeign_accepts hs with
  | start ha hi =>
    -- a new thread: the worker is not aborted, so its private queue is empty
    exact .of_empty ((h.stopped (hidle.1 hi)).resolve_right (Bool.eq_false_iff.1 ha))
  | active => exact h.of_same rfl rfl habort

theorem Drained.otherStep (h : w.Drained) (hidle : WorkerSystem.IdleOk w) (hs : w.OtherStep v) :
    v.Drained := by
  have habort := hs.settles.abort
  cases hs with
  | timeout hv =>
    simp only [threadStep] at hv
    split_ifs at hv with hpc
    cases hv
    exact .of_empty (h.waits (by rw [hpc]; rfl))
  | throw hpc hv =>
    simp only [threadStep, Worker.throw, hpc] at hv
    cases hv
    exact .of_pc rfl WorkerPc.noConfusion
  | enqueueLocal hv =>
    obtain ⟨hpc, rfl⟩ := enqueueLocal_eq_some hv
    exact .of_pc (by rw [hpc]; rfl) (by rw [hpc]; exact WorkerPc.noConfusion)
  | enqueueForeign hr => exact h.enqueueForeign hidle hr
  | @enqueuer r pc hr =>
    have hframe := WorkerSystem.enqueuerStep_frame hr
    have hqueue : r.1.privateQueue = w.privateQueue := by cases pc <;> cases hr <;> rfl
    exact h.of_same hframe.2.1 hqueue habort
  | shutdown _ hr =>
    cases shutdownStep_cases hr with
    | clear => exact .of_empty rfl
    | _ => exact h.of_same rfl rfl habort

/-- The next step of a thread that does not leave tasks behind. -/
theorem Drained.nextStep (h : w.Drained) (hs : w.nextStep = some v)
    (hleaves : w.pc = .aborted ∨ w.pc = .caught → w.privateQueue = [] ∨ w.abort = true) :
    v.Drained := by
  have habort : v.abort = w.abort := (WorkerSystem.threadStep_cases (m := .step) hs).2.1.1
  cases nextStep_cases hs with
  | wait hpc _ hq => exact .of_empty (hq.privateQueue.trans (h.waits hpc))
  | drained _ hempty _ hq => exact .of_empty (hq.privateQueue.trans hempty)
  | leave hpc hpc' hq =>
    rcases hleaves hpc with hempty | ha
    · exact .of_empty (hq.privateQueue.trans hempty)
    · exact ⟨fun hwaits => absurd hwaits (by rw [hpc']; simp [WorkerPc.waits]),
        fun _ => .inr (habort.trans ha)⟩
  | swap _ _ hpc' | enter _ _ hpc' | erase _ hpc' | stop _ hpc' | run _ hpc' | finish _ hpc' =>
    exact .of_pc (by rw [hpc']; rfl) (by rw [hpc']; exact WorkerPc.noConfusion)

end Worker

namespace ThreadPool

variable {τ : Type} {pool pool' : ThreadPool τ} {i : ℕ}

theorem drained_setWorker {v : Worker τ} (h : ∀ j, (pool.workers j).Drained) (hv : v.Drained)
    (j : ℕ) : ((pool.setWorker i v).workers j).Drained :=
  (Function.forall_update_iff pool.workers fun _ w => w.Drained).2 ⟨hv, fun j _ => h j⟩ j

/-- The thread of a worker in `balance_work` keeps everyone drained. -/
theorem drained_workerStep {stale : Prop} (hok : pool.BalanceOk stale)
    (h : ∀ j, (pool.workers j).Drained)
    (hleaves : (pool.workers i).pc = .aborted ∨ (pool.workers i).pc = .caught →
      (pool.workers i).privateQueue = [] ∨ (pool.workers i).abort = true)
    (hs : WorkerStep pool i pool') : ∀ j, (pool'.workers j).Drained := by
  cases hs with
  | mark | search | seek => exact h
  | found => exact drained_setWorker (v := (pool.workers i).check _) h ((h i).of_same rfl rfl id)
  | @refused _ _ _ _ _ _ _ hv =>
    refine drained_setWorker h ?_
    unfold Worker.throw at hv
    split at hv <;> cases hv
    · exact .of_pc rfl WorkerPc.noConfusion
    · exact .of_pc rfl WorkerPc.noConfusion
  | @donate target _ _ _ _ _ _ _ hv hw =>
    have htarget :=
      drained_setWorker (i := target) h ((h target).enqueueForeign (hok.idle target) hv)
    refine drained_setWorker htarget ?_
    unfold Worker.give at hw
    split at hw
    · split_ifs at hw
      cases hw
      exact .of_pc rfl WorkerPc.noConfusion
    · cases hw
  | @donated target _ _ _ _ _ hr =>
    exact drained_setWorker h ((h target).otherStep (hok.idle target) (.enqueuer hr))
  | @next _ _ b _ _ _ hv =>
    have hcheck : ((pool.workers i).check b).Drained := (h i).of_same rfl rfl id
    exact drained_setWorker h (hcheck.nextStep hv hleaves)

theorem drained_step {stale : Prop} {thread : ℕ → Prop} (hok : pool.BalanceOk stale)
    (h : ∀ j, (pool.workers j).Drained)
    (hleaves : ∀ i, thread i → (pool.workers i).pc = .aborted ∨ (pool.workers i).pc = .caught →
      (pool.workers i).privateQueue = [] ∨ (pool.workers i).abort = true)
    (hs : PoolStep thread pool pool') : ∀ j, (pool'.workers j).Drained := by
  cases hs with
  | same hworkers =>
    rw [hworkers]
    exact h
  | @thread _ i hi hs => exact drained_workerStep hok h (hleaves i hi) hs
  | @other i _ hv => exact drained_setWorker h ((h i).otherStep (hok.idle i) hv)

/-- The assertions of the worker `i`, where its thread comes to them: the private queue at the swap
of `drain_queue`, `m_idle_worker_list` on entry of `balance_work`, the number of idle workers behind
the search, the range of each iteration, and the private queue behind `balance_work`. -/
structure AssertionsHold (pool : ThreadPool τ) (i : ℕ) : Prop where
  swap : (pool.workers i).pc = .lock ∨ (pool.workers i).pc = .markActive →
    (pool.workers i).privateQueue = []
  entry : ∀ moved, (pool.workers i).pc = .balance moved → pool.inner i = .outside →
    pool.idleWorkerLists i = []
  idleCount : ∀ q, pool.inner i = .search q → q.pc = .done →
    (pool.idleWorkerLists i ++ q.found).length ≤ (pool.workers i).privateQueue.length - 1
  iteration : ∀ target targets cut, pool.inner i = .donate (target :: targets) cut →
    cut.start < (pool.workers i).privateQueue.length ∧
      cut.grow.stop ≤ (pool.workers i).privateQueue.length
  exit : (pool.workers i).pc = .checkAbort → (pool.workers i).privateQueue ≠ []

theorem assertionsHold_of_ok (hok : pool.BalanceOk False) (h : (pool.workers i).Drained) :
    pool.AssertionsHold i := by
  have hfits := hok.fits i
  have hnone : ∀ {aborted : ℕ → Prop} {list : List ℕ}, Left False aborted list → list = [] :=
    fun hleft => hleft.resolve_right fun hstale => hstale.1
  constructor
  case swap =>
    rintro (hpc | hpc)
    · exact h.waits (by rw [hpc]; rfl)
    · exact h.waits (by rw [hpc]; rfl)
  case entry =>
    intro moved hpc hin
    rw [hin] at hfits
    exact hnone hfits.2
  case idleCount =>
    intro q hin hq
    rw [hin] at hfits
    obtain ⟨-, hleft, -, hbound⟩ := hfits
    rw [hnone hleft, List.nil_append]
    exact hbound.found_le.trans hbound.limit_le
  case iteration =>
    intro target targets cut hin
    rw [hin] at hfits
    obtain ⟨k, j, hd⟩ := hfits
    have hcount := hd.count
    rw [List.length_cons] at hcount
    have hfew : k < (pool.workers i).privateQueue.length :=
      hd.few.resolve_right fun hstale => hstale.1
    refine ⟨?_, hd.stop_le⟩
    rw [hd.cut_eq, Cut.nth_start]
    exact EvenSplit.border_lt hfew (by omega)
  case exit => exact hok.loaded i

end ThreadPool

namespace ThreadPools

variable {P τ : Type} [DecidableEq P] {s : ThreadPools P τ}

/-- The next target of a donation is not aborted. -/
def DonationAccepted (pool : ThreadPool τ) : InnerPc → Prop
  | .donate (target :: _) _ => (pool.workers target).abort = false
  | _ => True

/-- The step of a thread leaves nothing behind in a worker that may be started again: no donation
meets an aborted worker, and a thread that ends because of `m_atomic_abort` or of an exception
leaves an empty private queue or an aborted worker. -/
def LeavesNothing (s : ThreadPools P τ) : PoolMove P τ → Prop
  | .worker p i => DonationAccepted (s.pools p) ((s.pools p).inner i) ∧
      ((s.worker p i).pc = .aborted ∨ (s.worker p i).pc = .caught →
        (s.worker p i).privateQueue = [] ∨ (s.worker p i).abort = true)
  | _ => True

instance (pool : ThreadPool τ) : (pc : InnerPc) → Decidable (DonationAccepted pool pc)
  | .donate (target :: _) _ => inferInstanceAs (Decidable ((pool.workers target).abort = false))
  | .donate [] _ | .outside | .add | .subtract | .search _ | .donated _ _ _ _ => .isTrue trivial

instance (s : ThreadPools P τ) : (m : PoolMove P τ) → Decidable (LeavesNothing s m)
  | .worker _ _ => inferInstanceAs (Decidable (_ ∧ _))
  | .timeout _ _ | .throw _ _ | .enqueue _ _ _ | .enqueueSpan _ _ _ | .shutdown _ _ | .call _
  | .joinThrows _ => .isTrue trivial

theorem ok_of_leavesNothing (h : Reach step IsInitial LeavesNothing s) (p : P) :
    (s.pools p).BalanceOk False ∧ ∀ i, ((s.pools p).workers i).Drained := by
  induction h with
  | start hs =>
    obtain ⟨size, rfl⟩ := hs
    exact ⟨ThreadPool.balanceOk_initial False (size p), fun _ => .of_empty rfl⟩
  | @next s _ _ hr hm hs ih =>
    have hpool := step_pool (q := p) (shutdownOk_of_reachable hr.reachable).clearsStopped hs
    refine ⟨ih.1.step ?_ hpool, ThreadPool.drained_step ih.1 ih.2 ?_ hpool⟩
    · rintro i rfl target targets cut hin habort
      have haccepted := hm.1
      rw [hin] at haccepted
      exact absurd habort (by simp [show ((s.pools p).workers target).abort = false from haccepted])
    · rintro i rfl
      exact hm.2

theorem assertionsHold_of_leavesNothing (h : Reach step IsInitial LeavesNothing s) (p : P) (i : ℕ) :
    (s.pools p).AssertionsHold i := by
  obtain ⟨hok, hdrained⟩ := ok_of_leavesNothing h p
  exact ThreadPool.assertionsHold_of_ok hok (hdrained i)

end ThreadPools

end Concurrencpp
