import Concurrencpp.Executors.Worker

/-!
# A worker that goes idle

One worker with any number of foreign enqueuers and a `shutdown`.  An enqueuer that finds `m_idle`
starts a thread; one that does not relies on the running thread to come back to the queue.  The
thread must therefore not set `m_idle` while the public queue holds a task.

It does so in three places without looking at the queue: when its wait has timed out, when
`drain_queue_impl` has seen `m_atomic_abort` before `m_abort` is set, and in the handler of
`work_loop` (`WorkerPc.retires`).  `stranded_by_timeout` is a run in which a task pushed between the
timeout and the lock is left behind with no thread to run it; `not_stranded` shows that these places
are the only cause, and that each of them strands what it finds.
-/

namespace Concurrencpp

open Interleaving

/-- The next step of the thread sets `m_idle` without a look at the public queue. -/
def WorkerPc.retires : WorkerPc → Bool
  | .timedOut | .aborted | .caught => true
  | _ => false

/-- A worker, its enqueuers and the caller of its `shutdown`. -/
structure WorkerSystem (τ : Type) where
  worker : Worker τ
  enqueuers : ℕ → EnqueuerPc
  shutdown : ShutdownPc

/-- The worker's thread, a call of `enqueue_foreign` by the enqueuer `k`, its steps behind the
critical section, or `shutdown`. -/
inductive WorkerMove (τ : Type)
  | thread (m : ThreadMove τ)
  | enqueue (k : ℕ) (tasks : List (Option τ))
  | enqueuer (k : ℕ)
  | shutdown

namespace WorkerSystem

variable {τ : Type} {s t : WorkerSystem τ}

/-- A new worker, nobody at work on it. -/
def initial : WorkerSystem τ where
  worker := .initial
  enqueuers := fun _ => .outside
  shutdown := .before

/-- The enqueuer `k` has made a step on the worker. -/
def setEnqueuer (s : WorkerSystem τ) (k : ℕ) (p : Worker τ × EnqueuerPc) : WorkerSystem τ :=
  { s with worker := p.1, enqueuers := Function.update s.enqueuers k p.2 }

/-- One step. -/
def step (s : WorkerSystem τ) : WorkerMove τ → Option (WorkerSystem τ)
  | .thread m => (s.worker.threadStep m).map fun w => { s with worker := w }
  | .enqueue k tasks =>
      if s.enqueuers k = .outside ∧ s.worker.lockFree then
        (s.worker.enqueueForeign tasks).map (s.setEnqueuer k)
      else none
  | .enqueuer k => (s.worker.enqueuerStep (s.enqueuers k)).map (s.setEnqueuer k)
  | .shutdown =>
      (s.worker.shutdownStep s.shutdown).map fun p => { s with worker := p.1, shutdown := p.2 }

def IsInitial (s : WorkerSystem τ) : Prop := s = initial

/-- The states that some interleaving reaches. -/
def Reachable : WorkerSystem τ → Prop := Interleaving.Reachable step IsInitial

/-- The worker is not aborted, every enqueuer has finished, no thread is there to look at the queue,
and the queue holds a task. -/
def Stranded (s : WorkerSystem τ) : Prop :=
  s.worker.abort = false ∧ (∀ k, s.enqueuers k = .outside) ∧ s.worker.idle = true ∧
    s.worker.publicQueue ≠ []

/-- The thread sets `m_idle` only over an empty public queue, or in an aborted worker. -/
def RetiresEmpty (s : WorkerSystem τ) (m : WorkerMove τ) : Prop :=
  m = .thread .step → s.worker.pc.retires = true →
    s.worker.publicQueue = [] ∨ s.worker.abort = true

instance (s : WorkerSystem τ) (m : WorkerMove τ) : Decidable (RetiresEmpty s m) :=
  match m with
  | .thread .step => decidable_of_iff
      (s.worker.pc.retires = true → s.worker.publicQueue = [] ∨ s.worker.abort = true)
      ⟨fun h _ => h, fun h => h rfl⟩
  | .thread .timeout | .thread (.give _) | .thread .throw | .thread (.enqueueLocal _)
  | .enqueue _ _ | .enqueuer _ | .shutdown => .isTrue nofun

/-! ### The flag and the thread -/

/-- `m_idle` is set exactly while no thread of the worker is inside `work_loop`. -/
def IdleOk (w : Worker τ) : Prop := w.idle = true ↔ w.pc = .stopped

theorem idle_takeQueue (w : Worker τ) :
    (w.takeQueue.abort = w.abort ∧ w.takeQueue.atomicAbort = w.atomicAbort) ∧
      (w.abort = true ∧ w.takeQueue.idle = true ∧ w.takeQueue.pc = .stopped ∧
        w.takeQueue.publicQueue = w.publicQueue ∨
      w.takeQueue.idle = w.idle ∧ w.takeQueue.pc ≠ .stopped) := by
  unfold Worker.takeQueue
  cases ha : w.abort with
  | true => exact ⟨⟨ha, rfl⟩, .inl ⟨rfl, rfl, rfl, rfl⟩⟩
  | false => exact ⟨⟨ha, rfl⟩, .inr ⟨rfl, nofun⟩⟩

/-- What a step of the thread does to the flags: it retires, from one of the three places or because
the worker is aborted, or it goes on. -/
theorem threadStep_cases {w v : Worker τ} {m : ThreadMove τ} (hs : w.threadStep m = some v) :
    w.pc ≠ .stopped ∧ (v.abort = w.abort ∧ v.atomicAbort = w.atomicAbort) ∧
      (v.idle = true ∧ v.pc = .stopped ∧ v.publicQueue = w.publicQueue ∧
        (m = .step ∧ w.pc.retires = true ∨ w.abort = true) ∨
      v.idle = w.idle ∧ v.pc ≠ .stopped) := by
  cases m with
  | step =>
    simp only [Worker.threadStep, Worker.nextStep] at hs
    cases hpc : w.pc <;> simp only [hpc] at hs
    case stopped => simp at hs
    case lock =>
      split_ifs at hs <;> cases hs
      · obtain ⟨ha, h | h⟩ := idle_takeQueue w
        · exact ⟨nofun, ha, .inl ⟨h.2.1, h.2.2.1, h.2.2.2, .inr h.1⟩⟩
        · exact ⟨nofun, ha, .inr h⟩
      · exact ⟨nofun, ⟨rfl, rfl⟩, .inr ⟨rfl, nofun⟩⟩
    case relock =>
      split_ifs at hs with hq ha <;> cases hs
      · exact ⟨nofun, ⟨rfl, rfl⟩, .inr ⟨rfl, nofun⟩⟩
      · exact ⟨nofun, ⟨rfl, rfl⟩, .inl ⟨rfl, rfl, rfl, .inr ha⟩⟩
      · exact ⟨nofun, ⟨rfl, rfl⟩, .inr ⟨rfl, nofun⟩⟩
    case markActive =>
      cases hs
      obtain ⟨ha, h | h⟩ := idle_takeQueue w
      · exact ⟨nofun, ha, .inl ⟨h.2.1, h.2.2.1, h.2.2.2, .inr h.1⟩⟩
      · exact ⟨nofun, ha, .inr h⟩
    case timedOut | aborted | caught =>
      cases hs
      exact ⟨nofun, ⟨rfl, rfl⟩, .inl ⟨rfl, rfl, rfl, .inl ⟨rfl, rfl⟩⟩⟩
    case acquire =>
      split_ifs at hs
      cases hs
      exact ⟨nofun, ⟨rfl, rfl⟩, .inr ⟨rfl, nofun⟩⟩
    case loadFound | loop =>
      cases hs
      refine ⟨nofun, ⟨rfl, rfl⟩, .inr ⟨rfl, ?_⟩⟩
      show ite _ _ _ ≠ _
      split_ifs <;> nofun
    case checkAbort =>
      split_ifs at hs <;> cases hs <;> exact ⟨nofun, ⟨rfl, rfl⟩, .inr ⟨rfl, nofun⟩⟩
    case markIdle | balance | running =>
      cases hs
      exact ⟨nofun, ⟨rfl, rfl⟩, .inr ⟨rfl, nofun⟩⟩
  | timeout =>
    simp only [Worker.threadStep] at hs
    split_ifs at hs with hpc
    cases hs
    exact ⟨by rw [hpc]; nofun, ⟨rfl, rfl⟩, .inr ⟨rfl, nofun⟩⟩
  | give =>
    simp only [Worker.threadStep, Worker.give] at hs
    split at hs
    case h_1 hpc =>
      split_ifs at hs
      cases hs
      exact ⟨by rw [hpc]; nofun, ⟨rfl, rfl⟩, .inr ⟨rfl, nofun⟩⟩
    case h_2 => cases hs
  | throw =>
    simp only [Worker.threadStep, Worker.throw] at hs
    split at hs
    case h_3 => cases hs
    all_goals
      rename_i hpc
      cases hs
      exact ⟨by rw [hpc]; nofun, ⟨rfl, rfl⟩, .inr ⟨rfl, nofun⟩⟩
  | enqueueLocal =>
    simp only [Worker.threadStep, Worker.enqueueLocal] at hs
    split_ifs at hs with hpc
    cases hs
    exact ⟨by rw [hpc.1]; nofun, ⟨rfl, rfl⟩, .inr ⟨rfl, by rw [hpc.1]; nofun⟩⟩

theorem idleOk_threadStep {w v : Worker τ} {m : ThreadMove τ} (h : IdleOk w)
    (hs : w.threadStep m = some v) : IdleOk v := by
  obtain ⟨hpc, -, ⟨hi, hst, -⟩ | ⟨hi, hst⟩⟩ := threadStep_cases hs
  · exact ⟨fun _ => hst, fun _ => hi⟩
  · exact ⟨fun hv => absurd (h.1 (hi.symm.trans hv)) hpc, fun hv => absurd hv hst⟩

/-- An accepted task finds a running thread, started by this enqueuer if need be. -/
theorem enqueueForeign_cases {w : Worker τ} {tasks : List (Option τ)} {p : Worker τ × EnqueuerPc}
    (h : IdleOk w) (hs : w.enqueueForeign tasks = some p) :
    p.1.idle = false ∧ p.1.pc ≠ .stopped := by
  cases Worker.enqueueForeign_accepts hs with
  | start => exact ⟨rfl, nofun⟩
  | active _ hidle => exact ⟨hidle, fun hpc => by cases hidle.symm.trans (h.2 hpc)⟩

theorem enqueuerStep_frame {w : Worker τ} {pc : EnqueuerPc} {p : Worker τ × EnqueuerPc}
    (hs : w.enqueuerStep pc = some p) :
    p.1.idle = w.idle ∧ p.1.pc = w.pc ∧ p.1.abort = w.abort ∧ p.1.publicQueue = w.publicQueue := by
  cases pc <;> cases hs <;> exact ⟨rfl, rfl, rfl, rfl⟩

theorem shutdownStep_frame {w : Worker τ} {pc : ShutdownPc} {p : Worker τ × ShutdownPc}
    (hs : w.shutdownStep pc = some p) :
    p.1.idle = w.idle ∧ p.1.pc = w.pc ∧ (w.abort = true → p.1.abort = true) ∧
      (p.1.publicQueue = w.publicQueue ∨ p.1.publicQueue = []) := by
  cases Worker.shutdownStep_cases hs with
  | clear => exact ⟨rfl, rfl, id, .inr rfl⟩
  | storeAbort => exact ⟨rfl, rfl, fun _ => rfl, .inl rfl⟩
  | _ => exact ⟨rfl, rfl, id, .inl rfl⟩

/-! ### Stranded tasks -/

/-- An idle worker that is not aborted has an empty public queue. -/
def Clean (w : Worker τ) : Prop := w.abort = false → w.idle = true → w.publicQueue = []

theorem clean_step {m : WorkerMove τ} (h : IdleOk s.worker) (hc : Clean s.worker)
    (hm : RetiresEmpty s m) (hs : s.step m = some t) : IdleOk t.worker ∧ Clean t.worker := by
  cases m with
  | thread =>
    obtain ⟨v, hv, rfl⟩ := Option.map_eq_some_iff.1 hs
    refine ⟨idleOk_threadStep h hv, fun ha hi => ?_⟩
    obtain ⟨hpc, ⟨hab, -⟩, ⟨-, -, hq, hwhy⟩ | ⟨hi', -⟩⟩ := threadStep_cases hv
    · -- the thread retires
      rcases hwhy with ⟨rfl, hret⟩ | hwhy
      · rcases hm rfl hret with hempty | habort
        · exact hq.trans hempty
        · cases (hab.trans habort).symm.trans ha
      · cases (hab.trans hwhy).symm.trans ha
    · exact absurd (h.1 (hi'.symm.trans hi)) hpc
  | enqueue =>
    simp only [step] at hs
    split_ifs at hs
    obtain ⟨p, hp, rfl⟩ := Option.map_eq_some_iff.1 hs
    obtain ⟨hi, hpc⟩ := enqueueForeign_cases h hp
    refine ⟨⟨fun hv => ?_, fun hv => absurd hv hpc⟩, fun _ hv => ?_⟩
    · cases hi.symm.trans hv
    · cases hi.symm.trans hv
  | enqueuer k =>
    obtain ⟨p, hp, rfl⟩ := Option.map_eq_some_iff.1 hs
    obtain ⟨hi, hpc, ha, hq⟩ := enqueuerStep_frame hp
    refine ⟨?_, fun ha' hi' => hq.trans (hc (ha ▸ ha') (hi ▸ hi'))⟩
    show _ ↔ _
    rw [show (s.setEnqueuer k p).worker = p.1 from rfl, hi, hpc]
    exact h
  | shutdown =>
    obtain ⟨p, hp, rfl⟩ := Option.map_eq_some_iff.1 hs
    obtain ⟨hi, hpc, ha, hq⟩ := shutdownStep_frame hp
    refine ⟨?_, fun ha' hi' => ?_⟩
    · show p.1.idle = true ↔ p.1.pc = .stopped
      rw [hi, hpc]
      exact h
    · rcases hq with hq | hq
      · refine hq.trans (hc ?_ (hi.symm.trans hi'))
        cases hab : s.worker.abort with
        | false => rfl
        | true => cases (ha hab).symm.trans ha'
      · exact hq

theorem clean_of_reach (h : Reach step IsInitial RetiresEmpty s) :
    IdleOk s.worker ∧ Clean s.worker := by
  induction h with
  | start hs =>
    cases hs
    exact ⟨⟨fun _ => rfl, fun _ => rfl⟩, fun _ _ => rfl⟩
  | next _ hm hs ih => exact clean_step ih.1 ih.2 hm hs

/-- **A task is stranded only by a thread that retires over a non-empty queue.**  In a run whose
thread sets `m_idle` only over an empty public queue or in an aborted worker, no accepted task is
ever left without a thread; and a thread that retires over a non-empty queue, with no enqueuer at
work, strands it. -/
theorem not_stranded :
    (∀ s : WorkerSystem τ, Reach step IsInitial RetiresEmpty s → ¬ Stranded s) ∧
    (∀ s : WorkerSystem τ, Reachable s → ∀ m t, s.step m = some t → ¬ RetiresEmpty s m →
      (∀ k, s.enqueuers k = .outside) → Stranded t) := by
  refine ⟨fun s h hstr => ?_, fun s _ m t hs hm hout => ?_⟩
  · obtain ⟨ha, -, hi, hq⟩ := hstr
    exact hq ((clean_of_reach h).2 ha hi)
  · simp only [RetiresEmpty, Classical.not_imp, not_or, Bool.not_eq_true] at hm
    obtain ⟨rfl, hret, hq, ha⟩ := hm
    obtain ⟨v, hv, rfl⟩ := Option.map_eq_some_iff.1 hs
    have hv' : v = s.worker.retire := by
      simp only [Worker.threadStep, Worker.nextStep] at hv
      cases hpc : s.worker.pc with
      | timedOut | aborted | caught => simp only [hpc] at hv; exact (Option.some.inj hv).symm
      | _ => rw [hpc] at hret; cases hret
    subst hv'
    exact ⟨ha, hout, rfl, hq⟩

/-- A run within the condition: the worker runs a task, times out over an empty queue, and is
started again by the next enqueuer. -/
theorem not_stranded_of_restart :
    ∃ s : WorkerSystem ℕ, Reach step IsInitial RetiresEmpty s ∧
      s.worker.publicQueue = [some 2] ∧ ¬ Stranded s := by
  let schedule : List (WorkerMove ℕ) :=
    [.enqueue 0 [some 1], .enqueuer 0] ++ List.replicate 8 (.thread .step) ++
      [.thread .timeout, .thread .step, .enqueue 1 [some 2], .enqueuer 1]
  let s := lastState (restrict step RetiresEmpty) initial schedule
  have h : Reach step IsInitial RetiresEmpty s := .lastState (by rfl) schedule
  exact ⟨s, h, rfl, not_stranded.1 s h⟩

/-- The wait of the worker times out; before the thread has the lock again, an enqueuer pushes a
task, sees that the worker is not idle and releases the semaphore; then the thread sets `m_idle` and
leaves. -/
theorem stranded_by_timeout :
    ∃ s : WorkerSystem ℕ, Reachable s ∧ s.worker.publicQueue = [some 2] ∧ Stranded s := by
  let schedule : List (WorkerMove ℕ) :=
    [.enqueue 0 [some 1], .enqueuer 0] ++ List.replicate 8 (.thread .step) ++
      [.thread .timeout, .enqueue 1 [some 2], .enqueuer 1, .thread .step]
  let s := lastState step initial schedule
  have h : Reachable s := .lastState (by rfl) schedule
  refine ⟨s, h, rfl, rfl, fun k => ?_, rfl, nofun⟩
  match k with
  | 0 => rfl
  | 1 => rfl
  | k + 2 => rfl

end WorkerSystem
end Concurrencpp
