import Concurrencpp.Executors.TaskLedger

/-!
# Conservation of tasks

Every step moves tasks between a few places and loses none.

* `TaskLedger.Moves`: what a step does to the record, for the threads of the workers (`moves_flow`,
  `moves_run`) and for the calls (`moves_call`).
* `TaskLedger.Ok.step`: the invariant.
* `TaskLedger.tasks_conserved`: every task is in exactly one place, and when `shutdown` has returned
  the queues are empty.
-/

namespace Concurrencpp

open Placement EvenSplit
open Function (update update_self update_of_ne forall_update_iff)

/-! ### Who runs a task -/

namespace Worker

variable {τ : Type} {w v : Worker τ}

theorem enqueueForeign_running {tasks : List (Option τ)} {r : Worker τ × EnqueuerPc}
    (hidle : WorkerSystem.IdleOk w) (hs : w.enqueueForeign tasks = some r) (hpc : w.pc = .running) :
    r.1.pc = .running := by
  cases enqueueForeign_accepts hs with
  | start _ hi =>
    rw [hidle.1 hi] at hpc
    cases hpc
  | active => exact hpc

end Worker

namespace ThreadPool

variable {τ : Type} {stale : Prop} {pool pool' : ThreadPool τ} {i j : ℕ}

theorem running_setWorker {v : Worker τ} (hv : (pool.workers i).pc = .running → v.pc = .running)
    (hpc : (pool.workers j).pc = .running) : ((pool.setWorker i v).workers j).pc = .running :=
  (forall_update_iff pool.workers fun k w => (pool.workers k).pc = .running → w.pc = .running).2
    ⟨hv, fun _ _ => id⟩ j hpc

/-- The thread of a worker does not disturb the others at their tasks. -/
theorem WorkerStep.running (h : pool.BalanceOk stale) (hs : WorkerStep pool i pool') (hj : j ≠ i)
    (hpc : (pool.workers j).pc = .running) : (pool'.workers j).pc = .running := by
  have hother : ∀ {p : ThreadPool τ} {v}, ((p.setWorker i v).workers j).pc = (p.workers j).pc :=
    fun {p v} => congrArg Worker.pc (update_of_ne hj _ _)
  cases hs with
  | mark | search | seek => exact hpc
  | found | refused | next => exact hother.trans hpc
  | @donate target _ _ _ _ _ _ _ hv =>
    have htarget :=
      running_setWorker (j := j) (Worker.enqueueForeign_running (h.idle target) hv) hpc
    exact hother.trans htarget
  | @donated _ _ _ _ _ _ hr =>
    exact running_setWorker (fun hpc => (WorkerSystem.enqueuerStep_frame hr).2.1.trans hpc) hpc

end ThreadPool

namespace ThreadPools

variable {P τ : Type} [DecidableEq P] {s u : ThreadPools P τ} {t : Thread P} {p q : P} {i j : ℕ}

theorem worker_setPool {pool : ThreadPool (P × τ)} :
    (s.setPool p pool).worker p i = pool.workers i := by
  simp [worker, setPool]

theorem worker_setPool_of_ne {pool : ThreadPool (P × τ)} (hq : q ≠ p) :
    (s.setPool p pool).worker q j = s.worker q j := by
  simp [worker, setPool, hq]

theorem running_setWorker {w : Worker (P × τ)} (hw : (s.worker p i).pc = .running → w.pc = .running)
    (hpc : (s.worker q j).pc = .running) : ((s.setWorker p i w).worker q j).pc = .running := by
  by_cases hne : q = p ∧ j = i
  · obtain ⟨rfl, rfl⟩ := hne
    rw [worker_setWorker]
    exact hw hpc
  · rw [worker_setWorker_of_ne hne]
    exact hpc

/-- A call does not disturb the workers at their tasks. -/
theorem callStep_running (hidle : ∀ q j, WorkerSystem.IdleOk (s.worker q j))
    (hs : s.callStep t = some u) (hpc : (s.worker q j).pc = .running) :
    (u.worker q j).pc = .running := by
  have hpool : ∀ {p pool}, pool.workers = (s.pools p).workers →
      ((s.setPool p pool).worker q j).pc = .running := by
    intro p pool hpool
    by_cases hq : q = p
    · subst hq
      rw [worker_setPool, hpool]
      exact hpc
    · rw [worker_setPool_of_ne hq]
      exact hpc
  cases callStep_cases hs with
  | searched | refusedLocal | refusedForeign | visited => exact hpc
  | seek | nextWorker => exact hpool rfl
  | storedLocal _ _ hw =>
    obtain ⟨-, rfl⟩ := Worker.enqueueLocal_eq_some hw
    exact running_setWorker (fun hpc => hpc) hpc
  | @storedForeign p index _ _ _ _ _ hw =>
    exact running_setWorker (Worker.enqueueForeign_running (hidle p index) hw) hpc
  | enqueued _ hr =>
    exact running_setWorker (fun hpc => (WorkerSystem.enqueuerStep_frame hr).2.1.trans hpc) hpc
  | visit _ _ hr =>
    exact running_setWorker (fun hpc => (WorkerSystem.shutdownStep_frame hr).2.1.trans hpc) hpc

end ThreadPools

/-! ### The invariant -/

namespace TaskLedger

variable {P τ : Type} {l u : TaskLedger P τ} {t : Thread P} {p : P} {i : ℕ} {v : ThreadPools P τ}

/-- What holds along a run. -/
structure Ok (l : TaskLedger P τ) : Prop where
  placed : Placed l.content
  held : ∀ x, Held l.content x ↔ x ∈ l.passed
  hand : ∀ p i, (l.system.worker p i).pc ≠ .running → l.executing p i = []
  calls : ∀ t, ThreadPools.CallFits (fun p => (l.system.pools p).size) t (l.system.calls t)
  shut : ∀ p, l.shutDown p = true → ∀ i < (l.system.pools p).size, (l.system.worker p i).Shut

/-- The tasks have been moved, and none was lost. -/
def Moves (l u : TaskLedger P τ) : Prop :=
  Placed u.content ∧ ∀ x, Held u.content x ↔ Held l.content x

theorem moves_of_eq (h : l.Ok) (hcontent : u.content = l.content) : Moves l u := by
  unfold Moves
  rw [hcontent]
  exact ⟨h.placed, fun _ => Iff.rfl⟩

theorem moves_queue (h : l.Ok) (hcalls : v.calls = l.system.calls)
    (htasks : ∀ k q j, (v.worker q j).tasks k = (l.system.worker q j).tasks k) :
    Moves l { l with system := v } := by
  refine moves_of_eq h (funext fun r => ?_)
  cases r with
  | call t => exact congrArg (fun calls => (calls t).tasks) hcalls
  | queue k q j => exact congrArg (List.map Prod.snd) (htasks k q j)
  | _ => rfl

variable [DecidableEq P]

/-- The places that a step of the thread of a worker does not touch. -/
theorem content_setPool {pool : ThreadPool (P × τ)} {r : TaskPlace P}
    (hr : ∀ k j, r = .queue k p j → pool.tasks k j = (l.system.pools p).tasks k j) :
    ({ l with system := l.system.setPool p pool } : TaskLedger P τ).content r = l.content r := by
  cases r with
  | queue k q j =>
    refine congrArg (List.map Prod.snd) ?_
    by_cases hq : q = p
    · subst hq
      exact (congrArg (Worker.tasks · k) ThreadPools.worker_setPool).trans (hr k j rfl)
    · exact congrArg (Worker.tasks · k) (ThreadPools.worker_setPool_of_ne hq)
  | _ => rfl

/-- The tasks of the queues of a pool move along. -/
theorem moves_flow {pool : ThreadPool (P × τ)} (h : l.Ok)
    (hflow : ThreadPool.Flow (l.system.pools p) i pool) (hpc : (pool.workers i).pc ≠ .running) :
    Moves l { l with system := l.system.setPool p pool } := by
  have hown : ∀ k j,
      ({ l with system := l.system.setPool p pool } : TaskLedger P τ).content (.queue k p j) =
      (pool.tasks k j).map Prod.snd :=
    fun k j => congrArg (fun w => (Worker.tasks w k).map Prod.snd) ThreadPools.worker_setPool
  cases hflow with
  | same htasks => exact moves_of_eq h (funext fun r => content_setPool fun k j _ => htasks k j)
  | swap hprivate hpublic hother =>
    refine h.placed.moved [.queue .privateQueue p i, .queue .publicQueue p i] (by simp) ?_
      fun r hr => content_setPool fun k j hrkj => hother k j fun hj => hr ?_
    · simp only [List.flatMap_cons, List.flatMap_nil, List.append_nil, hown, hprivate, hpublic]
      exact List.perm_append_comm
    · subst hj
      rw [hrkj]
      cases k <;> simp
  | run _ _ _ _ hpc' => exact absurd hpc' hpc
  | @donate target donated hprivate hpublic hprivates hpublics =>
    refine h.placed.moved [.queue .privateQueue p i, .queue .publicQueue p target] (by simp) ?_
      fun r hr => content_setPool fun k j hrkj => ?_
    · have hbefore : l.content (.queue .privateQueue p i) =
          donated.map Prod.snd ++ (pool.tasks .privateQueue i).map Prod.snd := by
        rw [← List.map_append, ← hprivate]
        rfl
      simp only [List.flatMap_cons, List.flatMap_nil, List.append_nil, hown, hpublic, hbefore,
        List.map_append]
      change (_ ++ (l.content (.queue .publicQueue p target) ++ _)).Perm _
      rw [← List.append_assoc]
      exact List.perm_append_comm.trans (by rw [List.append_assoc])
    · subst hrkj
      cases k with
      | privateQueue => exact hprivates j fun hj => hr (by rw [hj]; simp)
      | publicQueue => exact hpublics j fun hj => hr (by rw [hj]; simp)

theorem executing_update {f : P → ℕ → List τ} {x : List τ} :
    update f p (update (f p) i x) p i = x := by
  simp

theorem executing_update_of_ne {f : P → ℕ → List τ} {x : List τ} {q : P} {j : ℕ}
    (hne : ¬ (q = p ∧ j = i)) : update f p (update (f p) i x) q j = f q j := by
  by_cases hq : q = p
  · subst hq
    have hj : j ≠ i := fun hj => hne ⟨rfl, hj⟩
    simp [hj]
  · simp [hq]

theorem Moves.finish (h : Moves l u) : Moves l (u.finish p i) := by
  have hmoved : Placed (u.finish p i).content ∧
      ∀ x, Held (u.finish p i).content x ↔ Held u.content x := by
    refine h.1.moved [.executing p i, .executed] (by simp) ?_ ?_
    · simp only [List.flatMap_cons, List.flatMap_nil, List.append_nil]
      change (update u.executing p (update (u.executing p) i []) p i ++
        (u.executed ++ u.executing p i)).Perm (u.executing p i ++ u.executed)
      rw [executing_update, List.nil_append]
      exact List.perm_append_comm
    · intro r hr
      cases r with
      | executing =>
        refine executing_update_of_ne fun hqj => hr ?_
        rw [hqj.1, hqj.2]
        exact List.mem_cons_self
      | executed => exact absurd (by simp) hr
      | _ => rfl
  exact ⟨hmoved.1, fun x => (hmoved.2 x).trans (h.2 x)⟩

/-- The thread of a worker begins to run the task that it has taken out of its private queue. -/
theorem moves_run {pool : ThreadPool (P × τ)} (h : l.Ok)
    (hflow : ThreadPool.Flow (l.system.pools p) i pool) (hpc : (pool.workers i).pc = .running) :
    Moves l (l.recordThread p i (l.system.setPool p pool)) := by
  have hworker : (l.system.setPool p pool).worker p i = pool.workers i := ThreadPools.worker_setPool
  cases hflow with
  | same _ _ hpc' | swap _ _ _ _ hpc' | donate _ _ _ _ _ hpc' => exact absurd hpc hpc'
  | @run begun hprivate hother hexecuted hbefore =>
    have hnone : l.executing p i = [] := by
      refine h.hand p i ?_
      rw [show (l.system.worker p i).pc = _ from hbefore]
      exact WorkerPc.noConfusion
    have hbegun : l.begun p i (l.system.setPool p pool) = begun.map Prod.snd := by
      unfold TaskLedger.begun
      rw [hworker, hexecuted]
      exact congrArg (List.map Prod.snd) List.drop_left
    have hrecord : l.recordThread p i (l.system.setPool p pool) =
        { l with
          system := l.system.setPool p pool
          executing := update l.executing p
            (update (l.executing p) i (begun.map Prod.snd)) } := by
      unfold recordThread
      rw [hworker, if_pos hpc, hbegun, hnone, List.nil_append]
    rw [hrecord]
    refine h.placed.moved [.queue .privateQueue p i, .executing p i] (by simp) ?_ fun r hr => ?_
    · simp only [List.flatMap_cons, List.flatMap_nil, List.append_nil]
      change ((((l.system.setPool p pool).worker p i).tasks .privateQueue).map Prod.snd ++
        update l.executing p (update (l.executing p) i (begun.map Prod.snd)) p i).Perm
          (((l.system.pools p).tasks .privateQueue i).map Prod.snd ++ l.executing p i)
      rw [executing_update, hworker, hnone, hprivate, List.append_nil, List.map_append]
      exact List.Perm.refl _
    · cases r with
      | queue k q j =>
        refine content_setPool (l := l) (r := .queue k q j) fun k' j' hkj => hother k' j' ?_
        by_contra hnot
        rw [not_or, not_not, not_not] at hnot
        exact hr (by rw [hkj, hnot.1, hnot.2]; simp)
      | executing =>
        refine executing_update_of_ne fun hqj => hr ?_
        rw [hqj.1, hqj.2]
        simp
      | _ => rfl

variable {m : PoolMove P τ}

/-- A step that moves tasks. -/
theorem Ok.advance (h : l.Ok) (hr : ThreadPools.Reachable l.system)
    (hv : l.system.step m = some v) (hsystem : u.system = v) (hplaced : Placed u.content)
    (hheld : ∀ x, Held u.content x ↔ x ∈ u.passed)
    (hhand : ∀ p i, (v.worker p i).pc ≠ .running → u.executing p i = [])
    (hcalls : ∀ t, m.caller = some t →
      ThreadPools.CallFits (fun p => (l.system.pools p).size) t (v.calls t))
    (hshut : ∀ p, u.shutDown p = true → l.shutDown p = true ∨
      ∀ i < (l.system.pools p).size, (l.system.worker p i).Shut) : u.Ok := by
  subst hsystem
  have hsizes : (fun p => (u.system.pools p).size) = fun p => (l.system.pools p).size :=
    funext (ThreadPools.step_size hr hv)
  have hsettles := ThreadPools.step_settles (ThreadPools.shutdownOk_of_reachable hr) hv
  refine ⟨hplaced, hheld, hhand, fun t => ?_, fun p hp i hi => ?_⟩
  · rw [hsizes]
    by_cases hm : m.caller = some t
    · exact hcalls t hm
    · rw [ThreadPools.step_other hv hm]
      exact h.calls t
  · refine (hsettles p i).shut ?_
    rw [congrFun hsizes p] at hi
    exact (hshut p hp).elim (fun hp => h.shut p hp i hi) fun hall => hall i hi

omit [DecidableEq P] in
theorem Moves.held (hm : Moves l u) (h : l.Ok) (hpassed : u.passed = l.passed) (x : τ) :
    Held u.content x ↔ x ∈ u.passed := by
  rw [hpassed]
  exact (hm.2 x).trans (h.held x)

/-- The thread of a worker takes a step, or an exception leaves its task. -/
theorem Ok.recordThread {pool : ThreadPool (P × τ)} (h : l.Ok)
    (hr : ThreadPools.Reachable l.system) (hv : l.system.step m = some (l.system.setPool p pool))
    (hflow : ThreadPool.Flow (l.system.pools p) i pool)
    (hother : ∀ j, j ≠ i → ((l.system.pools p).workers j).pc = .running →
      (pool.workers j).pc = .running) : (l.recordThread p i (l.system.setPool p pool)).Ok := by
  have hworker : (l.system.setPool p pool).worker p i = pool.workers i := ThreadPools.worker_setPool
  -- the other threads run the tasks that they ran
  have hhand : ∀ q j, ¬ (q = p ∧ j = i) → ((l.system.setPool p pool).worker q j).pc ≠ .running →
      l.executing q j = [] := by
    intro q j hne hpc
    refine h.hand q j fun hrunning => hpc ?_
    by_cases hq : q = p
    · subst hq
      rw [ThreadPools.worker_setPool]
      exact hother j (fun hj => hne ⟨rfl, hj⟩) hrunning
    · rw [ThreadPools.worker_setPool_of_ne hq]
      exact hrunning
  have hcaller : ∀ t, m.caller = some t →
      ThreadPools.CallFits (fun p => (l.system.pools p).size) t
        ((l.system.setPool p pool).calls t) :=
    fun t ht => h.calls t
  by_cases hpc : (pool.workers i).pc = .running
  · have hmoves := moves_run h hflow hpc
    have hrecord : l.recordThread p i (l.system.setPool p pool) =
        { l with
          system := l.system.setPool p pool
          executing := update l.executing p (update (l.executing p) i
            (l.executing p i ++ l.begun p i (l.system.setPool p pool))) } := by
      unfold TaskLedger.recordThread
      rw [hworker, if_pos hpc]
    rw [hrecord] at hmoves ⊢
    refine h.advance hr hv rfl hmoves.1 (hmoves.held h rfl)
      (fun q j hpc' => ?_) hcaller fun p hp => .inl hp
    by_cases hne : q = p ∧ j = i
    · obtain ⟨rfl, rfl⟩ := hne
      rw [hworker] at hpc'
      exact absurd hpc hpc'
    · exact (executing_update_of_ne hne).trans (hhand q j hne hpc')
  · have hmoves : Moves l ({ l with system := l.system.setPool p pool }.finish p i) :=
      (moves_flow h hflow hpc).finish
    have hrecord : l.recordThread p i (l.system.setPool p pool) =
        { l with system := l.system.setPool p pool }.finish p i := by
      unfold TaskLedger.recordThread
      rw [hworker, if_neg hpc]
    rw [hrecord]
    refine h.advance hr hv rfl hmoves.1 (hmoves.held h rfl)
      (fun q j hpc' => ?_) hcaller fun p hp => .inl hp
    by_cases hne : q = p ∧ j = i
    · obtain ⟨rfl, rfl⟩ := hne
      exact executing_update
    · exact (executing_update_of_ne hne).trans (hhand q j hne hpc')

section calls

variable [DecidableEq τ]

/-- A new call takes its tasks from the caller. -/
theorem Ok.recordEnqueue {bySpan : Bool} {tasks : List τ} {c : Call P τ} (h : l.Ok)
    (hr : ThreadPools.Reachable l.system) (hv : l.system.step m = some (l.system.setCall t c))
    (hm : m.caller = some t) (hnd : tasks.Nodup) (hfresh : ∀ x ∈ tasks, x ∈ l.passed → x ∈ l.caller)
    (hout : l.system.calls t = .outside) (hc : c.tasks = tasks)
    (hfits : ThreadPools.CallFits (fun p => (l.system.pools p).size) t c) :
    (l.recordEnqueue t bySpan tasks (l.system.setCall t c)).Ok := by
  have hcollect : Placed (l.recordEnqueue t bySpan tasks (l.system.setCall t c)).content ∧
      ∀ x, Held (l.recordEnqueue t bySpan tasks (l.system.setCall t c)).content x ↔
        Held l.content x ∨ x ∈ tasks := by
    refine h.placed.collect (p := .call t) (q := .caller) hnd ?_ ?_ ?_ ?_ ?_ (by simp) ?_
    · intro x hx
      by_cases hp : x ∈ l.passed
      · exact .inr (hfresh x hx hp)
      · exact .inl fun hheld => hp ((h.held x).1 hheld)
    · change (l.system.calls t).tasks = []
      rw [hout]
      rfl
    · change ((l.system.setCall t c).calls t).tasks = tasks
      rw [ThreadPools.setCall_self, hc]
    · exact List.filter_sublist
    · intro x
      change x ∈ l.caller.filter (· ∉ tasks) ↔ x ∈ l.caller ∧ x ∉ tasks
      rw [List.mem_filter, decide_eq_true_iff]
    · intro r hcall hcaller
      cases r with
      | call t' =>
        have hne : t' ≠ t := fun ht => hcall (congrArg _ ht)
        exact congrArg Call.tasks (ThreadPools.setCall_of_ne hne)
      | caller => exact absurd rfl hcaller
      | _ => rfl
  refine h.advance hr hv rfl hcollect.1 (fun x => ?_) h.hand (fun t' ht => ?_) fun p hp => .inl hp
  · rw [hcollect.2 x, h.held x]
    exact List.mem_append.symm
  · cases hm.symm.trans ht
    rw [ThreadPools.setCall_self]
    exact hfits

omit [DecidableEq τ] in
/-- The places that a step of a call of `t` does not touch. -/
theorem content_recordCall {r : TaskPlace P} (hs : l.system.callStep t = some v)
    (hcall : r ≠ .call t) (hkept : r = .caller → (l.system.losses (l.bySpan t) t).kept = [])
    (hdestroyed : r = .destroyed → (l.system.losses (l.bySpan t) t).destroyed = [])
    (hqueue : ∀ k q j, r = .queue k q j → (v.worker q j).tasks k = (l.system.worker q j).tasks k) :
    (l.recordCall t v).content r = l.content r := by
  cases r with
  | call t' =>
    have hne : t' ≠ t := fun ht => hcall (congrArg _ ht)
    exact congrArg Call.tasks (ThreadPools.callStep_other hne (ThreadPools.callStep_cases hs))
  | caller => exact (congrArg (l.caller ++ ·) (hkept rfl)).trans (List.append_nil _)
  | queue k q j => exact congrArg (List.map Prod.snd) (hqueue k q j rfl)
  | destroyed => exact (congrArg (l.destroyed ++ ·) (hdestroyed rfl)).trans (List.append_nil _)
  | executing | executed => rfl

/-- The tasks of a call move along. -/
theorem moves_call (h : l.Ok) (hs : l.system.callStep t = some v) : Moves l (l.recordCall t v) := by
  have hcaller : (l.recordCall t v).content .caller =
      l.caller ++ (l.system.losses (l.bySpan t) t).kept := rfl
  have hdestroyed : (l.recordCall t v).content .destroyed =
      l.destroyed ++ (l.system.losses (l.bySpan t) t).destroyed := rfl
  cases ThreadPools.callStep_flow (l.bySpan t) (h.calls t) hs with
  | same htasks hcall hlosses =>
    refine moves_of_eq h (funext fun r => ?_)
    by_cases hcall' : r = .call t
    · rw [hcall']
      exact hcall
    · exact content_recordCall hs hcall' (fun _ => by rw [hlosses]; rfl)
        (fun _ => by rw [hlosses]; rfl) fun k q j _ => htasks k q j
  | @store k p i _ hstored hother hcall hlosses =>
    refine h.placed.moved [.call t, .queue k p i] (by simp) ?_ fun r hr => ?_
    · simp only [List.flatMap_cons, List.flatMap_nil, List.append_nil]
      change ((v.calls t).tasks ++ ((v.worker p i).tasks k).map Prod.snd).Perm
        ((l.system.calls t).tasks ++ ((l.system.worker p i).tasks k).map Prod.snd)
      rw [hstored, hcall, List.perm_iff_count]
      intro x
      simp only [List.count_append]
      omega
    · simp only [List.mem_cons, List.not_mem_nil, or_false, not_or] at hr
      refine content_recordCall hs hr.1 (fun _ => by rw [hlosses]; rfl)
        (fun _ => by rw [hlosses]; rfl) fun k' q j hkqj => hother k' q j fun heq => hr.2 ?_
      rw [hkqj, heq.1, heq.2.1, heq.2.2]
  | refuse htasks hcall hcall' =>
    refine h.placed.moved [.call t, .caller, .destroyed] (by simp) ?_ fun r hr => ?_
    · simp only [List.flatMap_cons, List.flatMap_nil, List.append_nil, hcaller, hdestroyed]
      change ((v.calls t).tasks ++ _).Perm ((l.system.calls t).tasks ++ (l.caller ++ l.destroyed))
      rw [hcall, hcall', List.perm_iff_count]
      intro x
      simp only [List.count_append, List.count_nil]
      omega
    · simp only [List.mem_cons, List.not_mem_nil, or_false, not_or] at hr
      exact content_recordCall hs hr.1 (fun hc => absurd hc hr.2.1) (fun hd => absurd hd hr.2.2)
        fun k q j _ => htasks k q j
  | @clear p i hcleared hother hcall hcall' hlosses =>
    rw [hlosses] at hdestroyed
    refine h.placed.moved [.queue .privateQueue p i, .queue .publicQueue p i, .destroyed]
      (by simp) ?_ fun r hr => ?_
    · have hempty : ∀ k, (l.recordCall t v).content (.queue k p i) = [] :=
        fun k => congrArg (List.map Prod.snd) (hcleared k)
      simp only [List.flatMap_cons, List.flatMap_nil, List.append_nil, hdestroyed, hempty,
        List.nil_append, List.map_append]
      change List.Perm _ (((l.system.worker p i).tasks .privateQueue).map Prod.snd ++
        (((l.system.worker p i).tasks .publicQueue).map Prod.snd ++ l.destroyed))
      rw [List.perm_iff_count]
      intro x
      simp only [List.count_append]
      omega
    · simp only [List.mem_cons, List.not_mem_nil, or_false, not_or] at hr
      by_cases hcall'' : r = .call t
      · rw [hcall'']
        exact hcall'.trans hcall.symm
      refine content_recordCall hs hcall'' (fun _ => by rw [hlosses]) (fun hd => absurd hd hr.2.2)
        fun k q j hkqj => hother k q j fun heq => ?_
      subst hkqj
      rw [heq.1, heq.2] at hr
      cases k with
      | privateQueue => exact hr.1 rfl
      | publicQueue => exact hr.2.1 rfl

theorem Ok.recordCall (h : l.Ok) (hr : ThreadPools.Reachable l.system)
    (hv : l.system.step (.call t) = some v) : (l.recordCall t v).Ok := by
  have hmoves := moves_call h hv
  have hidle : ∀ q j, WorkerSystem.IdleOk (l.system.worker q j) :=
    fun q j => (ThreadPools.balanceOk_of_reachable hr q).idle j
  refine h.advance hr hv rfl hmoves.1 (hmoves.held h rfl) (fun q j hpc => ?_)
    (fun t' ht => ?_) fun p hp => ?_
  · exact h.hand q j fun hrunning => hpc (ThreadPools.callStep_running hidle hv hrunning)
  · cases ht
    exact ThreadPools.callStep_fits (h.calls t) hv
  · rcases Bool.or_eq_true_iff.1 hp with hp | hp
    · exact .inl hp
    · right
      split at hp
      next q i pc hcall =>
        obtain ⟨rfl, hi⟩ := of_decide_eq_true hp
        intro j hj
        exact (ThreadPools.shutdownOk_of_reachable hr t q i pc hcall).2 j (hj.trans_le hi)
      next => cases hp

/-! ### Every run -/

theorem step_eq_some (hs : l.step m = some u) :
    m.tasks.Nodup ∧ (∀ x ∈ m.tasks, x ∈ l.passed → x ∈ l.caller) ∧
      ∃ v, l.system.step m = some v ∧ u = l.record m v := by
  unfold step at hs
  split_ifs at hs with hfresh
  obtain ⟨v, hv, rfl⟩ := Option.map_eq_some_iff.1 hs
  exact ⟨hfresh.1, hfresh.2, v, hv, rfl⟩

omit [DecidableEq τ] in
/-- A step of a call that has no tasks leaves the workers as they are. -/
theorem Ok.setCall {s : ThreadPools P τ} {c : Call P τ} (h : l.Ok)
    (hr : ThreadPools.Reachable l.system) (hv : l.system.step m = some (s.setCall t c))
    (hcaller : m.caller = some t) (hcalls : s.calls = l.system.calls)
    (hworker : ∀ q j, s.worker q j = l.system.worker q j) (hcall : (l.system.calls t).tasks = [])
    (hc : c.tasks = []) (hfits : ThreadPools.CallFits (fun p => (l.system.pools p).size) t c) :
    { l with system := s.setCall t c }.Ok := by
  have hmoves : Moves l { l with system := s.setCall t c } := by
    refine moves_of_eq h (funext fun r => ?_)
    cases r with
    | call t' =>
      by_cases ht : t' = t
      · subst ht
        change ((s.setCall t' c).calls t').tasks = _
        rw [ThreadPools.setCall_self, hc]
        exact hcall.symm
      · exact congrArg Call.tasks ((ThreadPools.setCall_of_ne ht).trans (congrFun hcalls t'))
    | queue k q j => exact congrArg (fun w => (Worker.tasks w k).map Prod.snd) (hworker q j)
    | _ => rfl
  refine h.advance hr hv rfl hmoves.1 (hmoves.held h rfl) (fun q j hpc => ?_) (fun t' ht => ?_)
    fun p hp => .inl hp
  · exact h.hand q j (by rwa [show (s.setCall t c).worker q j = _ from hworker q j] at hpc)
  · cases hcaller.symm.trans ht
    rw [ThreadPools.setCall_self]
    exact hfits

theorem Ok.step (h : l.Ok) (hr : ThreadPools.Reachable l.system) (hs : l.step m = some u) :
    u.Ok := by
  obtain ⟨hnd, hfresh, v, hv, rfl⟩ := step_eq_some hs
  cases ThreadPools.step_cases hv with
  | @worker p _ _ hstep =>
    have hok := ThreadPools.balanceOk_of_reachable hr p
    exact h.recordThread hr hv (hstep.flow hok) fun j hj => hstep.running hok hj
  | throw hpc hw =>
    refine h.recordThread hr hv ?_ fun j hj hrunning => ?_
    · have hq := Worker.throw_sameQueues hw
      refine .same_of rfl (fun k => hq.tasks k) hq.executed ?_
      simp only [Worker.throw, hpc] at hw
      cases hw
      exact WorkerPc.noConfusion
    · exact (congrArg Worker.pc (update_of_ne hj _ _)).trans hrunning
  | @timeout p i hpc =>
    have hmoves :
        Moves l { l with system := l.system.setWorker p i (((l.system.pools p).workers i).goto
        .timedOut) } := moves_queue h rfl (ThreadPools.tasks_of_sameQueues ⟨rfl, rfl, rfl⟩)
    refine h.advance hr hv rfl hmoves.1 (hmoves.held h rfl) (fun q j hpc' => ?_) (fun t ht => ?_)
      fun p hp => .inl hp
    · refine h.hand q j fun hrunning => hpc'
        (ThreadPools.running_setWorker (fun hrun => ?_) hrunning)
      cases hpc.symm.trans hrun
    · cases ht
  | enqueue hmay =>
    exact h.recordEnqueue hr hv rfl hnd hfresh
      (ThreadPools.calls_of_mayCall hmay) ThreadPools.tasks_enqueue ThreadPools.callFits_enqueue
  | enqueueSpan hmay hc =>
    obtain ⟨htasks, hfits⟩ := ThreadPools.enqueueSpan_tasks hc
    exact h.recordEnqueue hr hv rfl hnd hfresh (ThreadPools.calls_of_mayCall hmay) htasks hfits
  | @shutdown _ p hmay =>
    refine h.setCall hr hv rfl rfl (fun q j => ?_)
      (by rw [ThreadPools.calls_of_mayCall hmay]; rfl) ?_ ?_
    · by_cases hq : q = p
      · subst hq
        exact ThreadPools.worker_setPool
      · exact ThreadPools.worker_setPool_of_ne hq
    · split_ifs <;> rfl
    · split_ifs <;> trivial
  | call => exact h.recordCall hr hv
  | joinThrows hcall =>
    exact h.setCall hr hv rfl rfl (fun _ _ => rfl) (by rw [hcall]; rfl) rfl trivial

/-- The pools of a run of the record. -/
theorem reach_system {cond : ThreadPools P τ → PoolMove P τ → Prop}
    (hr : Interleaving.Reach step IsInitial (fun l m => cond l.system m) l) :
    Interleaving.Reach ThreadPools.step ThreadPools.IsInitial cond l.system := by
  induction hr with
  | start hs =>
    obtain ⟨size, rfl⟩ := hs
    exact .start ⟨size, rfl⟩
  | @next _ _ m _ hm hs ih =>
    obtain ⟨-, -, v, hv, rfl⟩ := step_eq_some hs
    refine ih.next hm ?_
    rw [hv]
    unfold record recordThread
    split <;> first | rfl | (split_ifs <;> rfl)

theorem reachable_system (hr : Reachable l) : ThreadPools.Reachable l.system := reach_system hr

theorem ok_of_reachable (hr : Reachable l) : l.Ok := by
  induction hr with
  | start hs =>
    obtain ⟨size, rfl⟩ := hs
    have hnone : ∀ r, (initial size : TaskLedger P τ).content r = [] := by
      intro r
      cases r with
      | queue k => cases k <;> rfl
      | _ => rfl
    refine ⟨.of_eq_nil hnone, fun x => ⟨fun hx => ?_, fun hx => ?_⟩, fun _ _ _ => rfl,
      fun _ => trivial, fun p hp => ?_⟩
    · exact absurd hx (not_held_of_eq_nil hnone)
    · cases hx
    · cases hp
  | next hreach _ hs ih => exact ih.step (reachable_system hreach) hs

/-- What the record says at every moment. -/
structure Conserved (l : TaskLedger P τ) : Prop where
  one_place : ∀ x ∈ l.passed, ∃! r, x ∈ l.content r
  once : ∀ r, (l.content r).Nodup
  executed_once : l.executed.Nodup
  not_both : ∀ x ∈ l.executed, x ∉ l.destroyed
  shut_down : ∀ p, l.shutDown p = true → ∀ i, (l.system.worker p i).privateQueue = [] ∧
    (l.system.worker p i).publicQueue = []
  pop_back : ∀ p i, (l.system.worker p i).pc = .checkAbort → (l.system.worker p i).privateQueue ≠ []
  donation : ∀ p i target targets cut,
    (l.system.pools p).inner i = .donate (target :: targets) cut →
    cut.grow.stop ≤ (l.system.worker p i).privateQueue.length

/-- The record of every run of the pools. -/
theorem conserved_of_reachable (hr : Reachable l) : l.Conserved := by
  have hok := ok_of_reachable hr
  have hsystem := reachable_system hr
  constructor
  case one_place =>
    intro x hx
    obtain ⟨r, hmem⟩ := (hok.held x).2 hx
    exact ⟨r, hmem, fun r' hmem' => hok.placed.unique hmem' hmem⟩
  case once => exact hok.placed.nodup
  case executed_once => exact hok.placed.nodup .executed
  case not_both =>
    intro x hexecuted hdestroyed
    cases hok.placed.unique (p := .executed) (q := .destroyed) hexecuted hdestroyed
  case shut_down =>
    intro p hp i
    by_cases hi : i < (l.system.pools p).size
    · have hshut := hok.shut p hp i hi
      exact ⟨hshut.privateQueue, hshut.publicQueue⟩
    · have hinitial : l.system.worker p i = .initial :=
        ((ThreadPools.inRange_of_reachable hsystem).pools p).workers i (not_lt.1 hi)
      rw [hinitial]
      exact ⟨rfl, rfl⟩
  case pop_back => exact fun p i => (ThreadPools.balanceOk_of_reachable hsystem p).loaded i
  case donation =>
    intro p i target targets cut hin
    have hfits := (ThreadPools.balanceOk_of_reachable hsystem p).fits i
    rw [hin] at hfits
    obtain ⟨k, j, hd⟩ := hfits
    exact hd.stop_le

end calls

end TaskLedger

end Concurrencpp
