import Concurrencpp.Executors.BalanceWork

/-!
# How tasks are distributed

The loops of `balance_work` and `enqueue(span)` on their own: what each worker gets, what is kept,
and whether the assertions on the way hold.

* `distribute`: the loop, over the variables of `Cut`, which the pool's steps use too.
* `balanceWork`, `enqueueSpan`: the two functions around it.
* `distribute_nth`: the worker that comes next gets the next part of an even split;
  `BalanceOk.donates` is the same of a donation that a worker's thread is about to make.
* `tasks_cut_evenly`: the two functions cut the tasks evenly, and every assertion holds.
-/

namespace Concurrencpp

open EvenSplit

namespace WorkDistribution

variable {α : Type}

/-- The loop: what each target gets, the variables behind it, and whether the assertions hold.
`assertion` is what the loop asserts of a target. -/
def distribute (assertion : ℕ → Bool) (tasks : List α) :
    List ℕ → Cut → List (ℕ × List α) × Cut × Bool
  | [], cut => ([], cut, true)
  | target :: targets, cut =>
      let c := cut.grow
      let r := distribute assertion tasks targets c.next
      ((target, c.range tasks) :: r.1, r.2.1,
        assertion target && decide (cut.start < tasks.length ∧ c.stop ≤ tasks.length) && r.2.2)

/-- `balance_work` of the worker `index`, when `find_idle_workers` has found `idle`: what it
donates, what is left in its private queue, and whether the assertions hold. -/
def balanceWork (index poolSize : ℕ) (idle : List ℕ) (queue : List α) :
    List (ℕ × List α) × List α × Bool :=
  let taskCount := queue.length
  if taskCount < 2 ∨ min (poolSize - 1) (taskCount - 1) = 0 ∨ idle = [] then ([], queue, true)
  else
    let r := distribute (fun target => target ≠ index ∧ target < poolSize) queue idle
      (.init taskCount (idle.length + 1))
    -- `erase`
    let rest := queue.drop r.2.1.start
    (r.1, rest, decide (idle.length ≤ taskCount) && r.2.2 && !rest.isEmpty)

/-- `enqueue(span)` of a thread without a worker, for at least as many tasks as workers. -/
def enqueueSpan (workerCount : ℕ) (tasks : List α) : List (ℕ × List α) × Bool :=
  let r :=
    distribute (fun _ => true) tasks (List.range workerCount) (.init tasks.length workerCount)
  (r.1, r.2.2)

/-- From the iteration `j` on, each target gets its part. -/
theorem distribute_nth {assertion : ℕ → Bool} {tasks : List α} {m : ℕ} (hm : m ≤ tasks.length)
    (targets : List ℕ) (hassert : ∀ target ∈ targets, assertion target = true) (j : ℕ)
    (hj : j + targets.length ≤ m) :
    distribute assertion tasks targets (.nth tasks.length m j) =
      ((targets.zipIdx j).map fun t => (t.1, part m t.2 tasks),
        .nth tasks.length m (j + targets.length), true) := by
  induction targets generalizing j with
  | nil => rfl
  | cons target _ ih =>
    rw [List.length_cons] at hj
    have hnext := ih (fun t ht => hassert t (List.mem_cons_of_mem _ ht)) (j + 1) (by omega)
    have hlt : (Cut.nth tasks.length m j).start < tasks.length := by
      rw [Cut.nth_start]
      exact border_lt hm (by omega)
    have hle : (Cut.nth tasks.length m j).grow.stop ≤ tasks.length := by
      rw [Cut.nth_stop]
      exact border_le (by omega) (by omega)
    have hcut : (Cut.nth tasks.length m j).grow.next = .nth tasks.length m (j + 1) := rfl
    simp only [distribute, hcut, hnext, hassert target List.mem_cons_self, hlt, hle, and_self,
      decide_true, Bool.and_self, Cut.range_nth, List.zipIdx_cons, List.map_cons, List.length_cons]
    rw [Nat.add_assoc, Nat.add_comm 1]

/-- The parts that targets get from the first iteration on. -/
theorem map_snd_parts (m : ℕ) (tasks : List α) (targets : List ℕ) :
    ((targets.zipIdx 0).map fun t => (t.1, part m t.2 tasks)).map Prod.snd =
      (List.range targets.length).map fun i => part m i tasks := by
  rw [List.map_map, List.range_eq_range', ← List.zipIdx_map_snd, List.map_map]
  rfl

theorem map_fst_parts (m : ℕ) (tasks : List α) (targets : List ℕ) :
    ((targets.zipIdx 0).map fun t => (t.1, part m t.2 tasks)).map Prod.fst = targets := by
  rw [List.map_map]
  exact List.zipIdx_map_fst ..

theorem balanceWork_spec {index poolSize : ℕ} {idle : List ℕ} {queue : List α} (hidle : idle ≠ [])
    (hfew : idle.length ≤ min (poolSize - 1) (queue.length - 1))
    (hworkers : ∀ target ∈ idle, target ≠ index ∧ target < poolSize) :
    balanceWork index poolSize idle queue =
      ((idle.zipIdx 0).map fun t => (t.1, part (idle.length + 1) t.2 queue),
        part (idle.length + 1) idle.length queue, true) := by
  have hpos : 0 < idle.length := List.length_pos_iff.2 hidle
  have hm : idle.length + 1 ≤ queue.length := by omega
  have hloop := distribute_nth hm idle (fun t ht => decide_eq_true (hworkers t ht)) 0 (by omega)
  rw [Nat.zero_add] at hloop
  -- what is kept is the last part
  have hlast : queue.drop (border queue.length (idle.length + 1) idle.length) =
      part (idle.length + 1) idle.length queue := by
    rw [← part_append, border_last (Nat.succ_pos _), List.drop_length, List.append_nil]
  have hkept : part (idle.length + 1) idle.length queue ≠ [] := part_ne_nil hm (Nat.lt_succ_self _)
  have hreturn : ¬ (queue.length < 2 ∨ min (poolSize - 1) (queue.length - 1) = 0 ∨ idle = []) := by
    rintro (h | h | h)
    · omega
    · omega
    · exact hidle h
  unfold balanceWork
  dsimp only
  rw [if_neg hreturn]
  have hinit : Cut.init queue.length (idle.length + 1) = .nth queue.length (idle.length + 1) 0 :=
    rfl
  rw [hinit, hloop, Cut.nth_start, hlast, decide_eq_true (by omega : idle.length ≤ queue.length),
    List.isEmpty_eq_false_iff.2 hkept]
  rfl

/-- **Tasks are cut evenly.**  `balance_work` gives each of the idle workers the next range of its
private queue and keeps the rest, and `enqueue(span)` gives each worker the next range of the span:
the ranges are consecutive, none is empty, and their sizes differ by at most one.  Every assertion
on the way holds. -/
theorem tasks_cut_evenly {α : Type} :
    (∀ (index poolSize : ℕ) (idle : List ℕ) (queue : List α), 1 ≤ idle.length →
      idle.length ≤ min (poolSize - 1) (queue.length - 1) →
      (∀ target ∈ idle, target ≠ index ∧ target < poolSize) →
      ∃ donations rest, balanceWork index poolSize idle queue = (donations, rest, true) ∧
        donations.map Prod.fst = idle ∧ EvenlyCut (donations.map Prod.snd ++ [rest]) queue) ∧
    ∀ (workerCount : ℕ) (tasks : List α), 1 ≤ workerCount → workerCount ≤ tasks.length →
      ∃ ranges, enqueueSpan workerCount tasks = (ranges, true) ∧
        ranges.map Prod.fst = List.range workerCount ∧ EvenlyCut (ranges.map Prod.snd) tasks := by
  constructor
  · intro index poolSize idle queue hpos hfew hworkers
    refine ⟨_, _, balanceWork_spec (List.length_pos_iff.1 hpos) hfew hworkers, map_fst_parts .., ?_⟩
    have heven := evenlyCut_parts (m := idle.length + 1) (l := queue) (Nat.succ_pos _) (by omega)
    rw [List.range_succ, List.map_append, ← map_snd_parts] at heven
    exact heven
  · intro workerCount tasks hpos hle
    have hlength : (List.range workerCount).length = workerCount := List.length_range
    have hloop := distribute_nth hle (List.range workerCount) (fun _ _ => rfl) 0 (by omega)
    refine ⟨_, congrArg (fun r => (r.1, r.2.2)) hloop, map_fst_parts .., ?_⟩
    rw [map_snd_parts, hlength]
    exact evenlyCut_parts hpos hle

/-- Five tasks and two idle workers of a pool of four; seven tasks for three workers. -/
theorem tasks_cut_evenly_of_five :
    balanceWork 1 4 [3, 0] [10, 11, 12, 13, 14] = ([(3, [10, 11]), (0, [12, 13])], [14], true) ∧
      EvenlyCut [[10, 11], [12, 13], [14]] [10, 11, 12, 13, 14] ∧
      EvenlyCut [[1, 2, 3], [4, 5], [6, 7]] [1, 2, 3, 4, 5, 6, 7] := by
  have hwork : balanceWork 1 4 [3, 0] [10, 11, 12, 13, 14] =
      ([(3, [10, 11]), (0, [12, 13])], [14], true) := by decide
  have hspan : enqueueSpan 3 [1, 2, 3, 4, 5, 6, 7] =
      ([(0, [1, 2, 3]), (1, [4, 5]), (2, [6, 7])], true) := by decide
  obtain ⟨donations, rest, heq, -, heven⟩ := tasks_cut_evenly.1 1 4 [3, 0] [10, 11, 12, 13, 14]
    (by decide) (by decide) (by decide)
  cases hwork.symm.trans heq
  obtain ⟨ranges, heq', -, heven'⟩ :=
    tasks_cut_evenly.2 3 [1, 2, 3, 4, 5, 6, 7] (by decide) (by decide)
  cases hspan.symm.trans heq'
  exact ⟨rfl, heven, heven'⟩

end WorkDistribution

/-- The thread of a worker is about to make the donation that `distribute` makes: the part `j` of
its private queue, which is cut into one more part than there are targets in all. -/
theorem ThreadPool.BalanceOk.donates {τ : Type} {stale : Prop} {pool : ThreadPool τ} {i target : ℕ}
    {targets : List ℕ} {cut : Cut} (h : pool.BalanceOk stale)
    (hpc : pool.inner i = .donate (target :: targets) cut) :
    ∃ j, cut = .nth (pool.workers i).privateQueue.length (j + targets.length + 2) j ∧
      cut.grow.range (pool.workers i).privateQueue =
        part (j + targets.length + 2) j (pool.workers i).privateQueue := by
  have hfits := h.fits i
  rw [hpc] at hfits
  obtain ⟨k, j, hd⟩ := hfits
  have hk : k + 1 = j + targets.length + 2 := by
    rw [← hd.count, List.length_cons]
    omega
  refine ⟨j, hk ▸ hd.cut_eq, ?_⟩
  rw [hd.cut_eq, Cut.range_nth, hk]

end Concurrencpp
