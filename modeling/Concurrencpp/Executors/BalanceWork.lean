import Concurrencpp.EvenSplit
import Concurrencpp.Executors.PoolShutdown

/-!
# The loops that distribute tasks

`balance_work` and `enqueue(span)` cut a sequence of tasks with the same variables.

* `Cut.nth_eq`: what the variables are before each iteration, and `Cut.range_nth`: the iteration `i`
  takes the part `i` of an even split.
* `ThreadPool.Fits`: where the thread of a worker is in `balance_work`, its variables belong to its
  private queue.  A list of idle workers that an exception has left behind contains an aborted
  worker, so that a donation along it cannot come to its end.
* `ThreadPool.BalanceOk.step`: this is an invariant, with or without such lists.
-/

namespace Concurrencpp

open EvenSplit
open Function (update update_self update_of_ne forall_update_iff)

namespace Cut

/-- The variables before the iteration `i`. -/
def nth (taskCount workerCount : ℕ) : ℕ → Cut
  | 0 => .init taskCount workerCount
  | i + 1 => (nth taskCount workerCount i).grow.next

theorem nth_eq (n m i : ℕ) :
    nth n m i = ⟨border n m i, border n m i + n / m, n % m - i, n / m⟩ := by
  induction i with
  | zero =>
    have hextra : n - n / m * m = n % m := by
      have hdiv := Nat.div_add_mod n m
      rw [Nat.mul_comm] at hdiv
      omega
    simp [nth, init, hextra]
  | succ i ih =>
    unfold nth
    rw [ih]
    unfold grow
    dsimp only
    split_ifs with hextra
    · have hlt : i < n % m := by omega
      simp only [next, border_succ, if_pos hlt, Nat.sub_sub]
    · have hge : ¬ i < n % m := by omega
      simp only [next, border_succ, if_neg hge, add_zero]
      simp only [Cut.mk.injEq, and_true, true_and]
      omega

theorem nth_start (n m i : ℕ) : (nth n m i).start = border n m i := by rw [nth_eq]

theorem grow_start (c : Cut) : c.grow.start = c.start := by
  unfold grow
  split_ifs <;> rfl

theorem nth_stop (n m i : ℕ) : (nth n m i).grow.stop = border n m (i + 1) := by
  rw [← nth_start n m (i + 1)]
  rfl

/-- The iteration `i` takes the part `i`. -/
theorem range_nth {α : Type} (m i : ℕ) (l : List α) :
    (nth l.length m i).grow.range l = part m i l := by
  unfold range part
  rw [grow_start, nth_start, nth_stop]

end Cut

/-! ### Where a thread is -/

/-- The thread is inside a function of the pool, or right behind `balance_work`. -/
def WorkerPc.inPool : WorkerPc → Bool
  | .markIdle | .markActive | .balance _ | .checkAbort => true
  | _ => false

namespace Worker

variable {τ : Type} {w v : Worker τ}

/-- A step that is not one of the worker's thread inside the functions of the pool: there the thread
stays where it is, and so does its private queue. -/
structure Apart (w v : Worker τ) : Prop where
  abort : w.abort = true → v.abort = true
  inPool : w.pc.inPool = true ∨ v.pc.inPool = true →
    v.pc = w.pc ∧ v.privateQueue = w.privateQueue

theorem Apart.of_eq (habort : w.abort = true → v.abort = true) (hpc : v.pc = w.pc)
    (hqueue : v.privateQueue = w.privateQueue) : w.Apart v :=
  ⟨habort, fun _ => ⟨hpc, hqueue⟩⟩

theorem Apart.of_outside (habort : w.abort = true → v.abort = true) (hw : w.pc.inPool = false)
    (hv : v.pc.inPool = false) : w.Apart v := by
  refine ⟨habort, fun h => ?_⟩
  rw [hw, hv] at h
  rcases h with h | h <;> cases h

theorem enqueueForeign_apart {tasks : List (Option τ)} {r : Worker τ × EnqueuerPc}
    (hidle : WorkerSystem.IdleOk w) (hs : w.enqueueForeign tasks = some r) : w.Apart r.1 := by
  have habort := (enqueueForeign_settles hs).abort
  cases enqueueForeign_accepts hs with
  | start _ hi =>
    -- a new thread is started, so the worker had none
    exact .of_outside habort (by rw [hidle.1 hi]; rfl) rfl
  | active => exact .of_eq habort rfl rfl

theorem enqueuerStep_apart {pc : EnqueuerPc} {r : Worker τ × EnqueuerPc}
    (hs : w.enqueuerStep pc = some r) : w.Apart r.1 := by
  cases pc <;> cases hs <;> exact .of_eq id rfl rfl

theorem OtherStep.apart (hidle : WorkerSystem.IdleOk w) (h : w.OtherStep v) : w.Apart v := by
  have habort := h.settles.abort
  cases h with
  | timeout hv =>
    simp only [threadStep] at hv
    split_ifs at hv with hpc
    cases hv
    exact .of_outside habort (by rw [hpc]; rfl) rfl
  | throw hpc hv =>
    simp only [threadStep, Worker.throw, hpc] at hv
    cases hv
    exact .of_outside habort (by rw [hpc]; rfl) rfl
  | enqueueLocal hv =>
    obtain ⟨hpc, rfl⟩ := enqueueLocal_eq_some hv
    exact .of_outside habort (by rw [hpc]; rfl) (by rw [hpc]; rfl)
  | enqueueForeign hr => exact enqueueForeign_apart hidle hr
  | enqueuer hr => exact enqueuerStep_apart hr
  | shutdown hclear hr =>
    cases shutdownStep_cases hr with
    | clear => exact .of_outside habort (by rw [hclear rfl]; rfl) (by rw [hclear rfl]; rfl)
    | _ => exact .of_eq habort rfl rfl

theorem OtherStep.idleOk (hidle : WorkerSystem.IdleOk w) (h : w.OtherStep v) :
    WorkerSystem.IdleOk v := by
  cases h with
  | timeout hv | throw _ hv => exact WorkerSystem.idleOk_threadStep hidle hv
  | @enqueueLocal _ tasks hv =>
    exact WorkerSystem.idleOk_threadStep (m := .enqueueLocal tasks) hidle hv
  | enqueueForeign hr =>
    obtain ⟨hi, hpc⟩ := WorkerSystem.enqueueForeign_cases hidle hr
    exact ⟨fun h => absurd h (by simp [hi]), fun h => absurd h hpc⟩
  | enqueuer hr =>
    obtain ⟨hi, hpc, -⟩ := WorkerSystem.enqueuerStep_frame hr
    unfold WorkerSystem.IdleOk
    rw [hi, hpc]
    exact hidle
  | shutdown _ hr =>
    obtain ⟨hi, hpc, -⟩ := WorkerSystem.shutdownStep_frame hr
    unfold WorkerSystem.IdleOk
    rw [hi, hpc]
    exact hidle

/-- The thread comes to `balance_work` from the head of its loop. -/
theorem NextStep.balance {moved : ℕ} (h : w.NextStep v) (hpc : v.pc = .balance moved) :
    moved = 0 ∧ v.privateQueue ≠ [] := by
  cases h with
  | enter _ hne hpc' hq =>
    rw [hpc] at hpc'
    cases hpc'
    exact ⟨rfl, hq.privateQueue ▸ hne⟩
  | wait _ hpc' =>
    rw [hpc] at hpc'
    rcases hpc' with hpc' | hpc' <;> cases hpc'
  | swap _ _ hpc' | drained _ _ hpc' | erase _ hpc' | stop _ hpc' | run _ hpc' | finish _ hpc'
  | leave _ hpc' =>
    rw [hpc] at hpc'
    cases hpc'

/-- The thread leaves `balance_work` with what it has not donated. -/
theorem NextStep.checkAbort (h : w.NextStep v) (hpc : v.pc = .checkAbort) :
    ∃ moved, w.pc = .balance moved ∧ v.privateQueue = w.privateQueue.drop moved := by
  cases h with
  | @erase moved hbalance _ hprivate => exact ⟨moved, hbalance, hprivate⟩
  | wait _ hpc' =>
    rw [hpc] at hpc'
    rcases hpc' with hpc' | hpc' <;> cases hpc'
  | swap _ _ hpc' | drained _ _ hpc' | enter _ _ hpc' | stop _ hpc' | run _ hpc' | finish _ hpc'
  | leave _ hpc' =>
    rw [hpc] at hpc'
    cases hpc'

end Worker

/-! ### The variables of `balance_work` -/

section Fits

variable {τ : Type} {stale : Prop} {aborted aborted' : ℕ → Prop} {w v : Worker τ} {list : List ℕ}

/-- `m_idle_worker_list` outside of a donation: empty, or, if an exception may have left it behind,
with an aborted worker in it. -/
def Left (stale : Prop) (aborted : ℕ → Prop) (list : List ℕ) : Prop :=
  list = [] ∨ stale ∧ ∃ target ∈ list, aborted target

/-- The thread is in the loop of `balance_work`, with `j` of `k` donations made: its variables are
those of the iteration `j`, and the slots of what it has donated are empty. -/
structure Donating (stale : Prop) (aborted : ℕ → Prop) (w : Worker τ) (list targets : List ℕ)
    (cut : Cut) (k j : ℕ) : Prop where
  cut_eq : cut = .nth w.privateQueue.length (k + 1) j
  count : targets.length + j = k
  pc : w.pc = .balance cut.start
  donated : ∀ task ∈ w.privateQueue.take cut.start, task = none
  targets_subset : targets ⊆ list
  few : k < w.privateQueue.length ∨ stale ∧ ∃ target ∈ targets, aborted target

/-- Where the thread is inside the functions of the pool, and what belongs to it. -/
def Fits (stale : Prop) (aborted : ℕ → Prop) (w : Worker τ) (list : List ℕ) : InnerPc → Prop
  | .outside => (∀ moved, w.pc = .balance moved → moved = 0 ∧ w.privateQueue ≠ []) ∧
      Left stale aborted list
  | .add => w.pc = .markIdle ∧ Left stale aborted list
  | .subtract => w.pc = .markActive ∧ Left stale aborted list
  | .search q => w.pc = .balance 0 ∧ Left stale aborted list ∧ 2 ≤ w.privateQueue.length ∧
      IdleWorkerSet.SearchBound (w.privateQueue.length - 1) q
  | .donate targets cut | .donated _ _ targets cut =>
      ∃ k j, Donating stale aborted w list targets cut k j

theorem Left.mono (haborted : ∀ target, aborted target → aborted' target)
    (h : Left stale aborted list) : Left stale aborted' list := by
  rcases h with h | ⟨hstale, target, hmem, ha⟩
  · exact .inl h
  · exact .inr ⟨hstale, target, hmem, haborted target ha⟩

variable {targets : List ℕ}

theorem Donating.mono {cut : Cut} {k j : ℕ} (haborted : ∀ target, aborted target → aborted' target)
    (hpc : v.pc = w.pc) (hqueue : v.privateQueue = w.privateQueue)
    (h : Donating stale aborted w list targets cut k j) :
    Donating stale aborted' v list targets cut k j where
  cut_eq := hqueue ▸ h.cut_eq
  count := h.count
  pc := hpc.trans h.pc
  donated := hqueue ▸ h.donated
  targets_subset := h.targets_subset
  few := by
    rw [hqueue]
    rcases h.few with hfew | ⟨hstale, target, hmem, ha⟩
    · exact .inl hfew
    · exact .inr ⟨hstale, target, hmem, haborted target ha⟩

/-- What happens apart from the thread keeps everything in place. -/
theorem Fits.apart {pc : InnerPc} (hw : w.Apart v)
    (haborted : ∀ target, aborted target → aborted' target) (h : Fits stale aborted w list pc) :
    Fits stale aborted' v list pc := by
  have hsame : ∀ {pc}, w.pc = pc → pc.inPool = true →
      v.pc = w.pc ∧ v.privateQueue = w.privateQueue :=
    fun hpc hin => hw.inPool (.inl (hpc ▸ hin))
  cases pc with
  | outside =>
    refine ⟨fun moved hpc => ?_, h.2.mono haborted⟩
    obtain ⟨hpc', hqueue⟩ := hw.inPool (.inr (by rw [hpc]; rfl))
    rw [hqueue]
    exact h.1 moved (hpc'.symm.trans hpc)
  | add | subtract => exact ⟨(hsame h.1 rfl).1.trans h.1, h.2.mono haborted⟩
  | search =>
    obtain ⟨hpc, hleft, hcount, hbound⟩ := h
    obtain ⟨hpc', hqueue⟩ := hsame hpc rfl
    exact ⟨hpc'.trans hpc, hleft.mono haborted, hqueue ▸ hcount, hqueue ▸ hbound⟩
  | donate | donated =>
    obtain ⟨k, j, hd⟩ := h
    obtain ⟨hpc', hqueue⟩ := hsame hd.pc rfl
    exact ⟨k, j, hd.mono haborted hpc' hqueue⟩

/-- The beginning of the loop. -/
theorem Donating.start {q : Search} {b : Bool} (h : Fits stale aborted w list (.search q)) :
    Donating stale aborted (w.check b) (list ++ q.found) (list ++ q.found)
      (.init w.privateQueue.length ((list ++ q.found).length + 1)) (list ++ q.found).length 0 := by
  obtain ⟨hpc, hleft, hcount, hbound⟩ := h
  refine ⟨rfl, rfl, hpc, ?_, List.Subset.refl _, ?_⟩
  · intro task htask
    rw [show (Cut.init w.privateQueue.length ((list ++ q.found).length + 1)).start = 0 from rfl,
      List.take_zero] at htask
    cases htask
  · rcases hleft with rfl | ⟨hstale, target, hmem, ha⟩
    · left
      have hfound := hbound.found_le.trans hbound.limit_le
      rw [List.nil_append]
      change q.found.length < w.privateQueue.length
      omega
    · exact .inr ⟨hstale, target, List.mem_append_left _ hmem, ha⟩

/-- The range of a donation lies inside the queue. -/
theorem Donating.stop_le {target : ℕ} {cut : Cut} {k j : ℕ}
    (h : Donating stale aborted w list (target :: targets) cut k j) :
    cut.grow.stop ≤ w.privateQueue.length := by
  have hcount := h.count
  rw [List.length_cons] at hcount
  rw [h.cut_eq, Cut.nth_stop]
  exact border_le (Nat.succ_pos k) (by omega)

/-- A donation ends where the next one starts. -/
theorem Donating.moved {cut : Cut} {k j : ℕ} (h : Donating stale aborted w list targets cut k j) :
    cut.start + (cut.grow.stop - cut.grow.start) = cut.grow.stop := by
  have hmono : border w.privateQueue.length (k + 1) j ≤
      border w.privateQueue.length (k + 1) (j + 1) :=
    border_mono _ _ j.le_succ
  rw [← Cut.nth_start, ← Cut.nth_stop, ← h.cut_eq] at hmono
  rw [Cut.grow_start]
  omega

/-- The next iteration. -/
theorem Donating.next {target : ℕ} {cut : Cut} {k j : ℕ}
    (h : Donating stale aborted w list (target :: targets) cut k j) (htarget : ¬ aborted target)
    (hv : w.give (cut.grow.stop - cut.grow.start) = some v) :
    Donating stale aborted v list targets cut.grow.next k (j + 1) := by
  have hcount := h.count
  rw [List.length_cons] at hcount
  have hle := h.stop_le
  simp only [Worker.give, h.pc, h.moved, hle, if_true] at hv
  cases hv
  have hlength : (List.replicate cut.grow.stop none ++ w.privateQueue.drop cut.grow.stop).length =
      w.privateQueue.length := by
    rw [List.length_append, List.length_replicate, List.length_drop]
    omega
  constructor
  case cut_eq =>
    change cut.grow.next = .nth (List.length (_ ++ _)) _ _
    rw [hlength, h.cut_eq]
    rfl
  case count => omega
  case pc => rfl
  case donated =>
    intro task htask
    change task ∈ List.take cut.grow.stop (List.replicate cut.grow.stop none ++ _) at htask
    rw [List.take_append_of_le_length (by simp), List.take_of_length_le (by simp)] at htask
    exact List.eq_of_mem_replicate htask
  case targets_subset => exact fun t ht => h.targets_subset (List.mem_cons_of_mem _ ht)
  case few =>
    change k < List.length (_ ++ _) ∨ _
    rw [hlength]
    rcases h.few with hfew | ⟨hstale, t, hmem, ha⟩
    · exact .inl hfew
    · rcases List.mem_cons.1 hmem with rfl | hmem
      · exact absurd ha htarget
      · exact .inr ⟨hstale, t, hmem, ha⟩

/-- Behind the last donation something is left. -/
theorem Donating.rest_ne_nil {cut : Cut} {k j : ℕ} (h : Donating stale aborted w list [] cut k j) :
    w.privateQueue.drop cut.start ≠ [] := by
  have hcount : 0 + j = k := h.count
  have hfew : k < w.privateQueue.length := by
    rcases h.few with hfew | ⟨-, t, hmem, -⟩
    · exact hfew
    · cases hmem
  have hlt : cut.start < w.privateQueue.length := by
    rw [h.cut_eq, Cut.nth_start]
    exact border_lt hfew (by omega)
  intro hnil
  exact absurd (List.drop_eq_nil_iff.1 hnil) (not_le.2 hlt)

end Fits

namespace ThreadPool

variable {τ : Type} {stale : Prop} {pool pool' : ThreadPool τ} {i : ℕ}

/-- What holds of all workers of a pool. -/
structure BalanceOk (stale : Prop) (pool : ThreadPool τ) : Prop where
  idle : ∀ i, WorkerSystem.IdleOk (pool.workers i)
  fits : ∀ i, Fits stale (fun j => (pool.workers j).abort = true) (pool.workers i)
    (pool.idleWorkerLists i) (pool.inner i)
  loaded : ∀ i, (pool.workers i).pc = .checkAbort → (pool.workers i).privateQueue ≠ []

theorem balanceOk_initial (stale : Prop) (size : ℕ) :
    (initial size : ThreadPool τ).BalanceOk stale where
  idle := fun _ => ⟨fun _ => rfl, fun _ => rfl⟩
  fits := fun _ => ⟨fun moved hpc => (by cases hpc), .inl rfl⟩
  loaded := fun _ hpc => (by cases hpc)

section

variable (h : pool.BalanceOk stale)
include h

/-- A pool in which only the worker `i` has taken a step of its own, with what belongs to it; the
others have been left apart. -/
theorem BalanceOk.of_apart (hidle : ∀ j, WorkerSystem.IdleOk (pool'.workers j))
    (hapart : ∀ j, j ≠ i → (pool.workers j).Apart (pool'.workers j))
    (habort : ∀ j, (pool.workers j).abort = true → (pool'.workers j).abort = true)
    (hlists : ∀ j, j ≠ i → pool'.idleWorkerLists j = pool.idleWorkerLists j)
    (hinner : ∀ j, j ≠ i → pool'.inner j = pool.inner j)
    (hfits : Fits stale (fun j => (pool'.workers j).abort = true) (pool'.workers i)
      (pool'.idleWorkerLists i) (pool'.inner i))
    (hloaded : (pool'.workers i).pc = .checkAbort → (pool'.workers i).privateQueue ≠ []) :
    pool'.BalanceOk stale where
  idle := hidle
  fits := fun j => by
    by_cases hj : j = i
    · rw [hj]
      exact hfits
    · rw [hlists j hj, hinner j hj]
      exact (h.fits j).apart (hapart j hj) habort
  loaded := fun j hpc => by
    by_cases hj : j = i
    · rw [hj] at hpc ⊢
      exact hloaded hpc
    · obtain ⟨hpc', hqueue⟩ := (hapart j hj).inPool (.inr (by rw [hpc]; rfl))
      rw [hqueue]
      exact h.loaded j (hpc'.symm.trans hpc)

/-- The worker `i` changes apart from its thread. -/
theorem BalanceOk.setWorker {v : Worker τ} (hidle : WorkerSystem.IdleOk v)
    (hv : (pool.workers i).Apart v) : (pool.setWorker i v).BalanceOk stale := by
  have hworker : ∀ j, (pool.workers j).Apart ((pool.setWorker i v).workers j) :=
    (forall_update_iff pool.workers fun j w => (pool.workers j).Apart w).2
      ⟨hv, fun _ _ => .of_eq id rfl rfl⟩
  refine h.of_apart (i := i) (fun j => ?_) (fun j _ => hworker j) (fun j => (hworker j).abort)
    (fun _ _ => rfl) (fun _ _ => rfl) ?_ ?_
  · exact (forall_update_iff pool.workers fun _ w => WorkerSystem.IdleOk w).2
      ⟨hidle, fun j _ => h.idle j⟩ j
  · exact (h.fits i).apart (hworker i) fun j => (hworker j).abort
  · intro hpc
    obtain ⟨hpc', hqueue⟩ := (hworker i).inPool (.inr (by rw [hpc]; rfl))
    rw [hqueue]
    exact h.loaded i (hpc'.symm.trans hpc)

theorem BalanceOk.setInner {pc : InnerPc}
    (hpc : Fits stale (fun j => (pool.workers j).abort = true) (pool.workers i)
      (pool.idleWorkerLists i) pc) : (pool.setInner i pc).BalanceOk stale := by
  refine h.of_apart (i := i) h.idle (fun _ _ => .of_eq id rfl rfl) (fun _ => id)
    (fun _ _ => rfl) ?_ ?_ (h.loaded i)
  · exact fun j hj => update_of_ne hj ..
  · rw [show (pool.setInner i pc).inner i = pc from update_self ..]
    exact hpc

/-- The worker `i` takes a step of its own: its worker, its list and its place change. -/
theorem BalanceOk.own {v : Worker τ} {list : List ℕ} {pc : InnerPc} (hidle : WorkerSystem.IdleOk v)
    (habort : v.abort = (pool.workers i).abort)
    (hfits : Fits stale (fun j => (pool.workers j).abort = true) v list pc)
    (hloaded : v.pc = .checkAbort → v.privateQueue ≠ []) :
    (((pool.setIdleWorkerList i list).setWorker i v).setInner i pc).BalanceOk stale := by
  have hworkers : (((pool.setIdleWorkerList i list).setWorker i v).setInner i pc).workers =
      update pool.workers i v := rfl
  have haborts : ∀ j, (update pool.workers i v j).abort = (pool.workers j).abort :=
    (forall_update_iff pool.workers fun j w => w.abort = (pool.workers j).abort).2
      ⟨habort, fun _ _ => rfl⟩
  refine h.of_apart (i := i) (fun j => ?_) (fun j hj => ?_) (fun j => ?_) ?_ ?_ ?_ ?_
  · rw [hworkers]
    exact (forall_update_iff pool.workers fun _ w => WorkerSystem.IdleOk w).2
      ⟨hidle, fun j _ => h.idle j⟩ j
  · rw [hworkers, update_of_ne hj]
    exact .of_eq id rfl rfl
  · rw [hworkers, haborts]
    exact id
  · exact fun j hj => update_of_ne hj ..
  · exact fun j hj => update_of_ne hj ..
  · rw [hworkers]
    simp only [haborts, update_self, ThreadPool.setInner, ThreadPool.setWorker,
      ThreadPool.setIdleWorkerList]
    exact hfits
  · rw [hworkers, update_self]
    exact hloaded

/-- The thread leaves a function of the pool, or was in none. -/
theorem BalanceOk.next {list : List ℕ} {b : Bool} {v : Worker τ} (hleave : Leaves pool i list)
    (hv : ((pool.workers i).check b).nextStep = some v) :
    (((pool.setIdleWorkerList i list).setWorker i v).setInner i .outside).BalanceOk stale := by
  have hcases := Worker.nextStep_cases hv
  have hthread := WorkerSystem.threadStep_cases (m := .step) hv
  have hfits := h.fits i
  have hleft : Left stale (fun j => (pool.workers j).abort = true) list := by
    cases hleave with
    | outside hin =>
      rw [hin] at hfits
      exact hfits.2
    | marked hin =>
      rcases hin with hin | hin <;> rw [hin] at hfits <;> exact hfits.2
    | notFound | donated => exact .inl rfl
  refine h.own
    (WorkerSystem.idleOk_threadStep (w := (pool.workers i).check b) (m := .step) (h.idle i) hv)
      hthread.2.1.1
    ⟨fun moved hpc => hcases.balance hpc, hleft⟩ fun hpc => ?_
  obtain ⟨moved, hbalance, hqueue⟩ := hcases.checkAbort hpc
  change (pool.workers i).pc = .balance moved at hbalance
  change v.privateQueue = (pool.workers i).privateQueue.drop moved at hqueue
  rw [hqueue]
  cases hleave with
  | outside hin =>
    rw [hin] at hfits
    obtain ⟨rfl, hne⟩ := hfits.1 moved hbalance
    exact hne
  | marked hin =>
    -- behind a mark the thread is not in `balance_work`
    rcases hin with hin | hin <;> rw [hin] at hfits <;> rw [hfits.1] at hbalance <;> cases hbalance
  | notFound hin =>
    rw [hin] at hfits
    obtain ⟨hpc', -, hcount, -⟩ := hfits
    rw [hpc'] at hbalance
    cases hbalance
    rw [List.drop_zero]
    intro hnil
    rw [hnil] at hcount
    exact absurd hcount (by simp)
  | donated hin =>
    rw [hin] at hfits
    obtain ⟨k, j, hd⟩ := hfits
    rw [hd.pc] at hbalance
    cases hbalance
    exact hd.rest_ne_nil

/-- One donation. -/
theorem BalanceOk.donate {target : ℕ} {targets : List ℕ} {cut : Cut} {b : Bool} {v w : Worker τ}
    {pc : EnqueuerPc} (hin : pool.inner i = .donate (target :: targets) cut)
    (hv : (pool.workers target).enqueueForeign (cut.grow.range (pool.workers i).privateQueue) =
      some (v, pc))
    (hw : (((pool.setWorker target v).workers i).check b).give (cut.grow.stop - cut.grow.start) =
      some w) :
    (((pool.setWorker target v).setWorker i w).setInner i
      (if pc = .outside then .donate targets cut.grow.next
        else .donated target pc targets cut.grow.next)).BalanceOk stale := by
  have htarget : ¬ (v.abort = true) := by
    cases Worker.enqueueForeign_accepts hv with
    | start habort | active habort => exact Bool.eq_false_iff.1 habort
  have hidle : WorkerSystem.IdleOk v := (Worker.OtherStep.enqueueForeign hv).idleOk (h.idle target)
  have h' := h.setWorker hidle (Worker.enqueueForeign_apart (h.idle target) hv)
  have hfits := h'.fits i
  rw [show (pool.setWorker target v).inner i = _ from hin] at hfits
  obtain ⟨k, j, hd⟩ := hfits
  have hthread := WorkerSystem.threadStep_cases (m := .give (cut.grow.stop - cut.grow.start)) hw
  have hnext : Donating stale (fun j => ((pool.setWorker target v).workers j).abort = true) w
      (pool.idleWorkerLists i) targets cut.grow.next k (j + 1) := by
    have hchecked : Donating stale (fun j => ((pool.setWorker target v).workers j).abort = true)
        (((pool.setWorker target v).workers i).check b) (pool.idleWorkerLists i) (target :: targets)
        cut k j :=
      Donating.mono (w := (pool.setWorker target v).workers i) (fun _ => id) rfl rfl hd
    refine hchecked.next ?_ hw
    rw [show (pool.setWorker target v).workers target = v from update_self ..]
    exact htarget
  have hplace : Fits stale (fun j => ((pool.setWorker target v).workers j).abort = true) w
      (pool.idleWorkerLists i) (if pc = .outside then .donate targets cut.grow.next
        else .donated target pc targets cut.grow.next) := by
    split_ifs <;> exact ⟨k, j + 1, hnext⟩
  have hown := h'.own
    (WorkerSystem.idleOk_threadStep (w := ((pool.setWorker target v).workers i).check b)
      (m := .give (cut.grow.stop - cut.grow.start)) (h'.idle i) hw)
    hthread.2.1.1 hplace (fun hpc => by rw [hnext.pc] at hpc; cases hpc)
  have hlist : (pool.setWorker target v).setIdleWorkerList i (pool.idleWorkerLists i) =
      pool.setWorker target v := setIdleWorkerList_self
  rw [hlist] at hown
  exact hown

/-- A step of a thread.  An exception out of `balance_work` leaves the list behind; it is admitted
where such lists are. -/
theorem BalanceOk.thread
    (hstale : ∀ target targets cut, pool.inner i = .donate (target :: targets) cut →
      (pool.workers target).abort = true → stale)
    (hs : WorkerStep pool i pool') : pool'.BalanceOk stale := by
  have hfits := h.fits i
  cases hs with
  | @mark set _ hin _ hpc =>
    rw [hin] at hfits
    have hset : BalanceOk stale { pool with idleWorkers := set } := ⟨h.idle, h.fits, h.loaded⟩
    refine hset.setInner ?_
    rcases hpc with ⟨hpc, rfl⟩ | ⟨hpc, rfl⟩
    · exact ⟨hpc, hfits.2⟩
    · exact ⟨hpc, hfits.2⟩
  | @search moved hin hpc hcount =>
    rw [hin] at hfits
    refine h.setInner ⟨?_, hfits.2, hcount, ?_⟩
    · rw [hpc, (hfits.1 moved hpc).1]
    · have hbound := IdleWorkerSet.SearchBound.begin
        (q := IdleWorkerSet.findIdleWorkers i
          (min (pool.size - 1) ((pool.workers i).privateQueue.length - 1))) rfl rfl
      exact ⟨hbound.start, hbound.found_le, hbound.room, min_le_right _ _⟩
  | @seek q hin =>
    rw [hin] at hfits
    have hset : BalanceOk stale { pool with idleWorkers := (pool.idleWorkers.searchStep q).1 } :=
      ⟨h.idle, h.fits, h.loaded⟩
    exact hset.setInner ⟨hfits.1, hfits.2.1, hfits.2.2.1, hfits.2.2.2.searchStep⟩
  | @found _ _ _ hin _ hlist =>
    rw [hin] at hfits
    subst hlist
    exact h.own (h.idle i) rfl ⟨_, 0, Donating.start hfits⟩ (h.loaded i)
  | @refused target targets cut b v hin habort hv =>
    rw [hin] at hfits
    obtain ⟨k, j, hd⟩ := hfits
    have hthread := WorkerSystem.threadStep_cases (m := .throw) hv
    have hcaught : v.pc = .caught := by
      have hpc : ((pool.workers i).check b).pc = .balance cut.start := hd.pc
      simp only [Worker.throw, hpc] at hv
      cases hv
      rfl
    have hleft : Left stale (fun j => (pool.workers j).abort = true) (pool.idleWorkerLists i) :=
      .inr ⟨hstale target targets cut hin habort, target,
        hd.targets_subset List.mem_cons_self, habort⟩
    have hplace :
        Fits stale (fun j => (pool.workers j).abort = true) v (pool.idleWorkerLists i) .outside :=
      ⟨fun moved hpc => (by rw [hcaught] at hpc; cases hpc), hleft⟩
    have hown := h.own
      (WorkerSystem.idleOk_threadStep (w := (pool.workers i).check b) (m := .throw) (h.idle i) hv)
      hthread.2.1.1 hplace (fun hpc => by rw [hcaught] at hpc; cases hpc)
    rw [setIdleWorkerList_self] at hown
    exact hown
  | donate hin hv hw => exact h.donate hin hv hw
  | @donated target _ _ _ r hin hr =>
    have hidle := (Worker.OtherStep.enqueuer hr).idleOk (h.idle target)
    have h' := h.setWorker hidle (Worker.enqueuerStep_apart hr)
    have hfits' := h'.fits i
    rw [show (pool.setWorker target r.1).inner i = _ from hin] at hfits'
    exact h'.setInner hfits'
  | next hleave _ hv =>
    have hnext := h.next hleave hv
    exact ⟨hnext.idle, hnext.fits, hnext.loaded⟩

/-- Everything that can happen to a pool keeps its workers in order. -/
theorem BalanceOk.step {thread : ℕ → Prop}
    (hstale : ∀ i, thread i → ∀ target targets cut, pool.inner i = .donate (target :: targets) cut →
      (pool.workers target).abort = true → stale)
    (hs : PoolStep thread pool pool') : pool'.BalanceOk stale := by
  cases hs with
  | same hworkers hinner hlists =>
    refine ⟨?_, ?_, ?_⟩
    · rw [hworkers]
      exact h.idle
    · rw [hworkers, hinner, hlists]
      exact h.fits
    · rw [hworkers]
      exact h.loaded
  | @thread _ i hi hs => exact h.thread (hstale i hi) hs
  | @other i _ hv => exact h.setWorker (hv.idleOk (h.idle i)) (hv.apart (h.idle i))

end

end ThreadPool

namespace ThreadPools

variable {P τ : Type} [DecidableEq P] {s : ThreadPools P τ}

/-- In every run the workers of all pools are in order, but for the lists that exceptions leave
behind. -/
theorem balanceOk_of_reachable (h : Reachable s) (p : P) : (s.pools p).BalanceOk True := by
  induction h with
  | start hs =>
    obtain ⟨size, rfl⟩ := hs
    exact ThreadPool.balanceOk_initial True (size p)
  | next hr _ hs ih =>
    exact ih.step (fun _ _ _ _ _ _ _ => trivial)
      (step_pool (shutdownOk_of_reachable hr).clearsStopped hs)

end ThreadPools

end Concurrencpp
