import Mathlib.Data.List.ReduceOption
import Concurrencpp.Executors.BalanceWork

/-!
# How tasks move inside a pool

The tasks in the queues of the workers, without the empty slots that donations leave behind.

* `ThreadPool.Flow`: in a step of a worker's thread the tasks stay where they are, the two queues of
  the worker are swapped, the thread takes out a task and begins to run it, or a range goes from its
  private queue to the public queue of another worker.
* `ThreadPool.WorkerStep.flow`: these are all possibilities, an interrupted donation included.
-/

namespace Concurrencpp

open EvenSplit
open Function (update update_self update_of_ne)

inductive WorkerQueue
  | privateQueue
  | publicQueue
  deriving DecidableEq, Repr

namespace Worker

variable {τ : Type} {w v : Worker τ}

/-- The tasks in a queue of the worker. -/
def tasks (w : Worker τ) : WorkerQueue → List τ
  | .privateQueue => w.privateQueue.reduceOption
  | .publicQueue => w.publicQueue.reduceOption

theorem SameQueues.tasks (h : w.SameQueues v) (k : WorkerQueue) : v.tasks k = w.tasks k := by
  cases k with
  | privateQueue => exact congrArg List.reduceOption h.privateQueue
  | publicQueue => exact congrArg List.reduceOption h.publicQueue

/-- What is taken out at the end of the private queue. -/
theorem reduceOption_dropLast (l : List (Option τ)) :
    l.reduceOption = l.dropLast.reduceOption ++ l.getLast?.join.toList := by
  cases l.eq_nil_or_concat with
  | inl hnil =>
    rw [hnil]
    rfl
  | inr hconcat =>
    obtain ⟨rest, task, rfl⟩ := hconcat
    rw [List.reduceOption_concat, List.concat_eq_append, List.dropLast_concat, List.getLast?_concat,
      Option.join_some]

theorem reduceOption_of_none {l : List (Option τ)} (h : ∀ task ∈ l, task = none) :
    l.reduceOption = [] := by
  rw [List.eq_replicate_of_mem h]
  exact List.reduceOption_replicate_none

end Worker

namespace ThreadPool

variable {τ : Type} {pool pool' : ThreadPool τ} {i : ℕ}

/-- The tasks in the queues of the workers. -/
def tasks (pool : ThreadPool τ) (k : WorkerQueue) (j : ℕ) : List τ := (pool.workers j).tasks k

/-- How the tasks move when the thread of the worker `i` takes a step. -/
inductive Flow (pool : ThreadPool τ) (i : ℕ) (pool' : ThreadPool τ) : Prop
  | same (htasks : ∀ k j, pool'.tasks k j = pool.tasks k j)
      (hexecuted : (pool'.workers i).executed = (pool.workers i).executed)
      (hpc : (pool'.workers i).pc ≠ .running)
  | swap (hprivate : pool'.tasks .privateQueue i = pool.tasks .publicQueue i)
      (hpublic : pool'.tasks .publicQueue i = pool.tasks .privateQueue i)
      (hother : ∀ k j, j ≠ i → pool'.tasks k j = pool.tasks k j)
      (hexecuted : (pool'.workers i).executed = (pool.workers i).executed)
      (hpc : (pool'.workers i).pc ≠ .running)
  | run {begun : List τ}
      (hprivate : pool.tasks .privateQueue i = pool'.tasks .privateQueue i ++ begun)
      (hother : ∀ k j, k ≠ .privateQueue ∨ j ≠ i → pool'.tasks k j = pool.tasks k j)
      (hexecuted : (pool'.workers i).executed = (pool.workers i).executed ++ begun)
      (hbefore : (pool.workers i).pc = .checkAbort) (hpc : (pool'.workers i).pc = .running)
  | donate {target : ℕ} {donated : List τ}
      (hprivate : pool.tasks .privateQueue i = donated ++ pool'.tasks .privateQueue i)
      (hpublic : pool'.tasks .publicQueue target = pool.tasks .publicQueue target ++ donated)
      (hprivates : ∀ j, j ≠ i → pool'.tasks .privateQueue j = pool.tasks .privateQueue j)
      (hpublics : ∀ j, j ≠ target → pool'.tasks .publicQueue j = pool.tasks .publicQueue j)
      (hexecuted : (pool'.workers i).executed = (pool.workers i).executed)
      (hpc : (pool'.workers i).pc ≠ .running)

variable {v : Worker τ}

theorem tasks_setWorker (k : WorkerQueue) : (pool.setWorker i v).tasks k i = v.tasks k := by
  simp [tasks, setWorker]

theorem tasks_setWorker_of_ne {j : ℕ} (hj : j ≠ i) (k : WorkerQueue) :
    (pool.setWorker i v).tasks k j = pool.tasks k j := by
  simp [tasks, setWorker, hj]

theorem tasks_setWorker_same (hv : ∀ k, v.tasks k = (pool.workers i).tasks k) (k : WorkerQueue)
    (j : ℕ) : (pool.setWorker i v).tasks k j = pool.tasks k j := by
  by_cases hj : j = i
  · rw [hj, tasks_setWorker]
    exact hv k
  · exact tasks_setWorker_of_ne hj k

/-- The worker `i` of the next pool is `v`, and the others are as they were. -/
theorem Flow.same_of (hworkers : pool'.workers = update pool.workers i v)
    (htasks : ∀ k, v.tasks k = pool.tasks k i) (hexecuted : v.executed = (pool.workers i).executed)
    (hpc : v.pc ≠ .running) : Flow pool i pool' := by
  have hself : pool'.workers i = v := by rw [hworkers, update_self]
  refine .same (fun k j => ?_) ?_ ?_
  · change (pool'.workers j).tasks k = _
    rw [hworkers]
    change (pool.setWorker i v).tasks k j = _
    exact tasks_setWorker_same htasks k j
  · rw [hself]
    exact hexecuted
  · rw [hself]
    exact hpc

end ThreadPool

/-- What a donation takes out of the private queue. -/
theorem Donating.tasks {τ : Type} {stale : Prop} {aborted : ℕ → Prop} {w : Worker τ}
    {list targets : List ℕ} {cut : Cut} {k j : ℕ}
    (h : Donating stale aborted w list targets cut k j) :
    w.privateQueue.reduceOption = (cut.grow.range w.privateQueue).reduceOption ++
      (w.privateQueue.drop cut.grow.stop).reduceOption := by
  have hstart : cut.start = border w.privateQueue.length (k + 1) j := by
    rw [h.cut_eq, Cut.nth_start]
  have hrange : cut.grow.range w.privateQueue = part (k + 1) j w.privateQueue := by
    rw [h.cut_eq, Cut.range_nth]
  have hstop : cut.grow.stop = border w.privateQueue.length (k + 1) (j + 1) := by
    rw [h.cut_eq, Cut.nth_stop]
  have hnone := h.donated
  rw [hrange, hstop, ← List.reduceOption_append, part_append, ← hstart]
  conv_lhs => rw [← List.take_append_drop cut.start w.privateQueue]
  rw [List.reduceOption_append, Worker.reduceOption_of_none hnone, List.nil_append]

namespace ThreadPool

variable {τ : Type} {stale : Prop} {pool pool' : ThreadPool τ} {i : ℕ}

theorem flow_donate {target : ℕ} {targets : List ℕ} {cut : Cut} {b : Bool} {v w : Worker τ}
    {pc : EnqueuerPc} (h : pool.BalanceOk stale)
    (hin : pool.inner i = .donate (target :: targets) cut)
    (hv : (pool.workers target).enqueueForeign (cut.grow.range (pool.workers i).privateQueue) =
      some (v, pc))
    (hw : (((pool.setWorker target v).workers i).check b).give (cut.grow.stop - cut.grow.start) =
      some w)
    (hworkers : pool'.workers = ((pool.setWorker target v).setWorker i w).workers) :
    Flow pool i pool' := by
  obtain ⟨hpriv, hpub, hexec⟩ := Worker.enqueueForeign_queues hv
  have hfits := h.fits i
  rw [hin] at hfits
  obtain ⟨k, j, hd⟩ := hfits
  -- the donor, after the critical section on the target
  have hdonor : ((pool.setWorker target v).workers i).privateQueue = (pool.workers i).privateQueue ∧
      ((pool.setWorker target v).workers i).executed = (pool.workers i).executed ∧
      ((pool.setWorker target v).workers i).pc = (pool.workers i).pc := by
    by_cases htarget : i = target
    · subst htarget
      have hapart := Worker.enqueueForeign_apart (h.idle i) hv
      obtain ⟨hpc, -⟩ := hapart.inPool (.inl (by rw [hd.pc]; rfl))
      rw [show (pool.setWorker i v).workers i = v from update_self ..]
      exact ⟨hpriv, hexec, hpc⟩
    · rw [show (pool.setWorker target v).workers i = pool.workers i from update_of_ne htarget ..]
      exact ⟨rfl, rfl, rfl⟩
  have hgive := Worker.give_queues hw
  obtain ⟨moved, hpc, hprivate, hpublic, hexecuted, hpc'⟩ := hgive
  have hbalance : WorkerPc.balance cut.start = .balance moved := by
    rw [← hd.pc, ← hdonor.2.2]
    exact hpc
  cases hbalance
  rw [hd.moved] at hprivate
  change w.privateQueue = List.replicate cut.grow.stop none ++
    ((pool.setWorker target v).workers i).privateQueue.drop cut.grow.stop at hprivate
  have htasks : ∀ k j, pool'.tasks k j = ((pool.setWorker target v).setWorker i w).tasks k j :=
    fun k j => congrArg (fun workers => (workers j).tasks k) hworkers
  have hself : pool'.workers i = w := by
    rw [hworkers]
    exact update_self ..
  refine .donate
    (?_ : _ = (cut.grow.range (pool.workers i).privateQueue).reduceOption ++
      pool'.tasks .privateQueue i)
    (?_ : pool'.tasks .publicQueue target = _) ?_ ?_ ?_ ?_
  · have hleft : w.tasks .privateQueue =
        ((pool.workers i).privateQueue.drop cut.grow.stop).reduceOption := by
      change w.privateQueue.reduceOption = _
      rw [hprivate, hdonor.1, List.reduceOption_append, List.reduceOption_replicate_none,
        List.nil_append]
    rw [htasks, tasks_setWorker, hleft]
    exact hd.tasks
  · have hgained : v.tasks .publicQueue = pool.tasks .publicQueue target ++
        (cut.grow.range (pool.workers i).privateQueue).reduceOption := by
      change v.publicQueue.reduceOption = _
      rw [show v.publicQueue = _ from hpub, List.reduceOption_append]
      rfl
    rw [htasks, ← hgained]
    by_cases htarget : target = i
    · subst htarget
      rw [tasks_setWorker]
      change w.publicQueue.reduceOption = v.publicQueue.reduceOption
      rw [hpublic]
      change ((pool.setWorker target v).workers target).publicQueue.reduceOption = _
      rw [show (pool.setWorker target v).workers target = v from update_self ..]
    · rw [tasks_setWorker_of_ne htarget, tasks_setWorker]
  · intro j hj
    rw [htasks, tasks_setWorker_of_ne hj]
    by_cases hjt : j = target
    · rw [hjt, tasks_setWorker]
      exact congrArg List.reduceOption hpriv
    · exact tasks_setWorker_of_ne hjt _
  · intro j hj
    rw [htasks]
    by_cases hji : j = i
    · subst hji
      rw [tasks_setWorker, ← tasks_setWorker_of_ne (v := v) hj .publicQueue]
      exact congrArg List.reduceOption hpublic
    · rw [tasks_setWorker_of_ne hji]
      exact tasks_setWorker_of_ne hj _
  · rw [hself, hexecuted]
    exact hdonor.2.1
  · rw [hself, hpc']
    exact WorkerPc.noConfusion

/-- Behind `balance_work` only empty slots are erased. -/
theorem Leaves.erased {list : List ℕ} {moved : ℕ} (h : pool.BalanceOk stale)
    (hleave : Leaves pool i list) (hpc : (pool.workers i).pc = .balance moved) :
    ∀ task ∈ (pool.workers i).privateQueue.take moved, task = none := by
  have hfits := h.fits i
  cases hleave with
  | outside hin =>
    rw [hin] at hfits
    obtain ⟨rfl, -⟩ := hfits.1 moved hpc
    exact fun task htask => absurd htask (by simp)
  | marked hin =>
    rcases hin with hin | hin <;> rw [hin] at hfits <;> rw [hfits.1] at hpc <;> cases hpc
  | notFound hin =>
    rw [hin] at hfits
    obtain rfl : (0 : ℕ) = moved := WorkerPc.balance.inj (hfits.1.symm.trans hpc)
    exact fun task htask => absurd htask (by simp)
  | donated hin =>
    rw [hin] at hfits
    obtain ⟨k, j, hd⟩ := hfits
    obtain rfl := WorkerPc.balance.inj (hd.pc.symm.trans hpc)
    exact hd.donated

/-- The thread takes a step of its own. -/
theorem flow_next {list : List ℕ} {b : Bool} {v : Worker τ} (h : pool.BalanceOk stale)
    (hleave : Leaves pool i list) (hv : ((pool.workers i).check b).nextStep = some v)
    (hworkers : pool'.workers = update pool.workers i v) : Flow pool i pool' := by
  have hself : pool'.workers i = v := by rw [hworkers, update_self]
  have hne : ∀ k j, j ≠ i → pool'.tasks k j = pool.tasks k j := by
    intro k j hj
    change (pool'.workers j).tasks k = _
    rw [hworkers, update_of_ne hj]
    rfl
  have hown : ∀ k, pool'.tasks k i = v.tasks k :=
    fun k => congrArg (fun u => Worker.tasks u k) hself
  cases Worker.nextStep_cases hv with
  | wait _ hpc' hq =>
    refine .same_of hworkers (fun k => hq.tasks k) hq.executed ?_
    intro hrunning
    rw [hrunning] at hpc'
    rcases hpc' with hpc' | hpc' <;> cases hpc'
  | drained _ _ hpc' hq | enter _ _ hpc' hq | stop _ hpc' hq | finish _ hpc' hq | leave _ hpc' hq =>
    refine .same_of hworkers (fun k => hq.tasks k) hq.executed ?_
    rw [hpc']
    exact WorkerPc.noConfusion
  | swap _ _ hpc' hprivate hpublic hexecuted =>
    refine .swap ?_ ?_ hne ?_ ?_
    · rw [hown]
      exact congrArg List.reduceOption hprivate
    · rw [hown]
      exact congrArg List.reduceOption hpublic
    · rw [hself]
      exact hexecuted
    · rw [hself, hpc']
      exact WorkerPc.noConfusion
  | @erase moved hpc hpc' hprivate hpublic hexecuted =>
    have hnone := hleave.erased h hpc
    have htasks : v.tasks .privateQueue = pool.tasks .privateQueue i := by
      change v.privateQueue.reduceOption = (pool.workers i).privateQueue.reduceOption
      rw [hprivate]
      conv_rhs => rw [← List.take_append_drop moved (pool.workers i).privateQueue]
      rw [List.reduceOption_append, Worker.reduceOption_of_none hnone, List.nil_append]
      rfl
    refine .same_of hworkers (fun k => ?_) hexecuted ?_
    · cases k with
      | privateQueue => exact htasks
      | publicQueue => exact congrArg List.reduceOption hpublic
    · rw [hpc']
      exact WorkerPc.noConfusion
  | run hpc hpc' hprivate hpublic hexecuted =>
    refine .run (?_ : _ = _ ++ (pool.workers i).privateQueue.getLast?.join.toList) ?_ ?_ hpc ?_
    · rw [hown]
      change (pool.workers i).privateQueue.reduceOption = v.privateQueue.reduceOption ++ _
      rw [hprivate]
      exact Worker.reduceOption_dropLast _
    · intro k j hkj
      by_cases hj : j = i
      · rw [hj, hown]
        cases k with
        | privateQueue => exact (hkj.elim (fun hk => hk rfl) fun hji => hji hj).elim
        | publicQueue => exact congrArg List.reduceOption hpublic
      · exact hne k j hj
    · rw [hself]
      exact hexecuted
    · rw [hself]
      exact hpc'

/-- The thread is in `balance_work`, or about to mark its worker. -/
theorem not_running (h : pool.BalanceOk stale) (hin : pool.inner i ≠ .outside) :
    (pool.workers i).pc ≠ .running := by
  have hfits := h.fits i
  intro hpc
  cases hinner : pool.inner i with
  | outside => exact hin hinner
  | add | subtract | search =>
    rw [hinner] at hfits
    cases hpc.symm.trans hfits.1
  | donate | donated =>
    rw [hinner] at hfits
    obtain ⟨k, j, hd⟩ := hfits
    cases hpc.symm.trans hd.pc

/-- **A step of a worker's thread moves tasks in one of four ways.** -/
theorem WorkerStep.flow (h : pool.BalanceOk stale) (hs : WorkerStep pool i pool') :
    Flow pool i pool' := by
  have hin : pool.inner i ≠ .outside → (pool.workers i).pc ≠ .running := not_running h
  cases hs with
  | @mark _ pc _ _ hpc =>
    refine .same (fun _ _ => rfl) rfl ?_
    change (pool.workers i).pc ≠ .running
    rcases hpc with ⟨hpc, -⟩ | ⟨hpc, -⟩ <;> rw [hpc] <;> exact WorkerPc.noConfusion
  | search _ hpc =>
    refine .same (fun _ _ => rfl) rfl ?_
    change (pool.workers i).pc ≠ .running
    rw [hpc]
    exact WorkerPc.noConfusion
  | seek hinner =>
    exact .same (fun _ _ => rfl) rfl (hin (by rw [hinner]; exact InnerPc.noConfusion))
  | found hinner =>
    exact .same_of rfl (fun _ => rfl) rfl (hin (by rw [hinner]; exact InnerPc.noConfusion))
  | @refused _ _ _ _ _ _ _ hv =>
    have hq := Worker.throw_sameQueues hv
    refine .same_of rfl (fun k => hq.tasks k) hq.executed ?_
    unfold Worker.throw at hv
    split at hv <;> cases hv <;> exact WorkerPc.noConfusion
  | donate hinner hv hw => exact flow_donate h hinner hv hw rfl
  | @donated target pc _ _ r hinner hr =>
    have hq := Worker.enqueuerStep_sameQueues hr
    have hframe := WorkerSystem.enqueuerStep_frame hr
    have hsame : ((pool.setWorker target r.1).workers i).executed = (pool.workers i).executed ∧
        ((pool.setWorker target r.1).workers i).pc = (pool.workers i).pc := by
      by_cases hi : i = target
      · rw [hi, show (pool.setWorker target r.1).workers target = r.1 from update_self ..]
        exact ⟨hq.executed, hframe.2.1⟩
      · rw [show (pool.setWorker target r.1).workers i = pool.workers i from update_of_ne hi ..]
        exact ⟨rfl, rfl⟩
    refine .same (fun k j => tasks_setWorker_same (fun k => hq.tasks k) k j) hsame.1 ?_
    change ((pool.setWorker target r.1).workers i).pc ≠ .running
    rw [hsame.2]
    exact hin (by rw [hinner]; exact InnerPc.noConfusion)
  | next hleave _ hv => exact flow_next h hleave hv rfl

end ThreadPool

end Concurrencpp
