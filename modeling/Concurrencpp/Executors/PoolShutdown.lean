import Concurrencpp.Executors.PoolSteps
import Concurrencpp.Executors.WorkerIdle

/-!
# The shutdown of a pool

`thread_pool_executor::shutdown` visits the workers one after another, while the others go on.  A
worker that has been visited is aborted, its thread has stopped and its queues are empty; none of
this changes any more (`Worker.Shut`).

* `Worker.Stage`: how far the shutdown of one worker has come.
* `ThreadPools.ShutdownOk`: this is what holds along a run while `shutdown` is at work.
-/

namespace Concurrencpp

open Function (update update_self update_of_ne forall_update_iff)

namespace Worker

variable {τ : Type} {w v : Worker τ}

/-- The worker has been shut down. -/
structure Shut (w : Worker τ) : Prop where
  abort : w.abort = true
  stopped : w.pc = .stopped
  privateQueue : w.privateQueue = []
  publicQueue : w.publicQueue = []

/-- What the call of `shutdown` has achieved when it is at `pc`. -/
def Stage (w : Worker τ) : ShutdownPc → Prop
  | .before | .storeAbort => True
  | .storeFound | .release | .join => w.abort = true
  | .clear => w.abort = true ∧ w.pc = .stopped
  | .done => w.Shut

/-- The worker stays aborted; without a thread it stays so, and its queues do not grow. -/
structure Settles (w v : Worker τ) : Prop where
  abort : w.abort = true → v.abort = true
  atomicAbort : w.atomicAbort = true → v.atomicAbort = true
  stopped : w.abort = true → w.pc = .stopped → v.pc = .stopped ∧
    (v.privateQueue = w.privateQueue ∨ v.privateQueue = []) ∧
    (v.publicQueue = w.publicQueue ∨ v.publicQueue = [])

theorem Settles.refl : w.Settles w := ⟨id, id, fun _ hpc => ⟨hpc, .inl rfl, .inl rfl⟩⟩

theorem Settles.trans {x : Worker τ} (h : w.Settles v) (h' : v.Settles x) : w.Settles x where
  abort ha := h'.abort (h.abort ha)
  atomicAbort ha := h'.atomicAbort (h.atomicAbort ha)
  stopped ha hpc := by
    obtain ⟨hv, hpriv, hpub⟩ := h.stopped ha hpc
    obtain ⟨hx, hpriv', hpub'⟩ := h'.stopped (h.abort ha) hv
    refine ⟨hx, ?_, ?_⟩
    · exact hpriv'.elim (fun h => hpriv.imp h.trans h.trans) .inr
    · exact hpub'.elim (fun h => hpub.imp h.trans h.trans) .inr

theorem Settles.shut (h : w.Settles v) (hw : w.Shut) : v.Shut := by
  obtain ⟨hpc, hpriv, hpub⟩ := h.stopped hw.abort hw.stopped
  refine ⟨h.abort hw.abort, hpc, ?_, ?_⟩
  · rcases hpriv with hpriv | hpriv
    · rw [hpriv, hw.privateQueue]
    · exact hpriv
  · rcases hpub with hpub | hpub
    · rw [hpub, hw.publicQueue]
    · exact hpub

theorem Settles.stage (h : w.Settles v) {pc : ShutdownPc} (hw : w.Stage pc) : v.Stage pc := by
  cases pc with
  | before | storeAbort => trivial
  | storeFound | release | join => exact h.abort hw
  | clear => exact ⟨h.abort hw.1, (h.stopped hw.1 hw.2).1⟩
  | done => exact h.shut hw

/-! ### The steps of a worker -/

/-- The thread keeps both flags, and a thread that has stopped takes no step. -/
theorem threadStep_settles {m : ThreadMove τ} (hs : w.threadStep m = some v) : w.Settles v := by
  obtain ⟨hpc, ⟨habort, hatomic⟩, -⟩ := WorkerSystem.threadStep_cases hs
  exact ⟨habort.trans, hatomic.trans, fun _ h => absurd h hpc⟩

/-- An aborted worker accepts nothing. -/
theorem enqueueForeign_settles {tasks : List (Option τ)} {r : Worker τ × EnqueuerPc}
    (hs : w.enqueueForeign tasks = some r) : w.Settles r.1 := by
  cases enqueueForeign_accepts hs with
  | start habort | active habort =>
    refine ⟨fun h => ?_, id, fun h => ?_⟩ <;> cases habort.symm.trans h

theorem enqueuerStep_settles {pc : EnqueuerPc} {r : Worker τ × EnqueuerPc}
    (hs : w.enqueuerStep pc = some r) : w.Settles r.1 := by
  cases pc <;> cases hs <;> exact ⟨id, id, fun _ hpc => ⟨hpc, .inl rfl, .inl rfl⟩⟩

theorem shutdownStep_stage {pc : ShutdownPc} {r : Worker τ × ShutdownPc} (hw : w.Stage pc)
    (hs : w.shutdownStep pc = some r) : r.1.Stage r.2 := by
  cases shutdownStep_cases hs with
  | before => trivial
  | storeAbort => exact rfl
  | storeFound | release => exact hw
  | join hpc => exact ⟨hw, hpc⟩
  | clear => exact ⟨hw.1, hw.2, rfl, rfl⟩

theorem shutdownStep_settles {pc : ShutdownPc} {r : Worker τ × ShutdownPc}
    (hs : w.shutdownStep pc = some r) : w.Settles r.1 := by
  cases shutdownStep_cases hs with
  | storeAbort => exact ⟨fun _ => rfl, id, fun _ hpc => ⟨hpc, .inl rfl, .inl rfl⟩⟩
  | join => exact .refl
  | clear => exact ⟨id, id, fun _ hpc => ⟨hpc, .inr rfl, .inr rfl⟩⟩
  | before => exact ⟨id, fun _ => rfl, fun _ hpc => ⟨hpc, .inl rfl, .inl rfl⟩⟩
  | storeFound | release => exact ⟨id, id, fun _ hpc => ⟨hpc, .inl rfl, .inl rfl⟩⟩

theorem OtherStep.settles (h : w.OtherStep v) : w.Settles v := by
  cases h with
  | timeout hv | throw _ hv => exact threadStep_settles hv
  | @enqueueLocal _ tasks hv => exact threadStep_settles (m := .enqueueLocal tasks) hv
  | enqueueForeign hr => exact enqueueForeign_settles hr
  | enqueuer hr => exact enqueuerStep_settles hr
  | shutdown _ hr => exact shutdownStep_settles hr

end Worker

/-! ### The workers of a pool -/

namespace ThreadPool

variable {τ : Type} {pool pool' : ThreadPool τ} {i : ℕ}

theorem settles_setWorker {v : Worker τ} (hv : (pool.workers i).Settles v) (j : ℕ) :
    (pool.workers j).Settles ((pool.setWorker i v).workers j) :=
  (forall_update_iff pool.workers fun j w => (pool.workers j).Settles w).2 ⟨hv, fun _ _ => .refl⟩ j

theorem WorkerStep.settles (h : WorkerStep pool i pool') (j : ℕ) :
    (pool.workers j).Settles (pool'.workers j) := by
  cases h with
  | mark | search | seek => exact .refl
  | found =>
    refine settles_setWorker (v := (pool.workers i).check _) ?_ j
    exact ⟨id, id, fun _ hpc => ⟨hpc, .inl rfl, .inl rfl⟩⟩
  | refused _ _ hv =>
    have hthrow := Worker.threadStep_settles (m := .throw) hv
    exact settles_setWorker ⟨hthrow.abort, hthrow.atomicAbort, hthrow.stopped⟩ j
  | @donate target _ _ _ v w _ _ hv hw =>
    -- the target may be any worker, so the second change is made to what the first has left
    have hgive := Worker.threadStep_settles (m := .give _) hw
    have htarget := settles_setWorker (Worker.enqueueForeign_settles hv) j
    have hdonor : ((pool.setWorker target v).workers j).Settles
        (((pool.setWorker target v).setWorker i w).workers j) :=
      settles_setWorker ⟨hgive.abort, hgive.atomicAbort, hgive.stopped⟩ j
    exact htarget.trans hdonor
  | donated _ hr => exact settles_setWorker (Worker.enqueuerStep_settles hr) j
  | next _ _ hv =>
    have hnext := Worker.threadStep_settles (m := .step) hv
    exact settles_setWorker ⟨hnext.abort, hnext.atomicAbort, hnext.stopped⟩ j

theorem PoolStep.settles {thread : ℕ → Prop} (h : PoolStep thread pool pool') (j : ℕ) :
    (pool.workers j).Settles (pool'.workers j) := by
  cases h with
  | same hworkers =>
    rw [hworkers]
    exact .refl
  | thread _ hs => exact hs.settles j
  | other hv => exact settles_setWorker hv.settles j

theorem WorkerStep.abort_eq (h : WorkerStep pool i pool') : pool'.abort = pool.abort := by
  cases h <;> rfl

end ThreadPool

/-! ### Whose call a step changes -/

/-- The thread whose call the step begins or continues. -/
def PoolMove.caller {P τ : Type} : PoolMove P τ → Option (Thread P)
  | .enqueue t _ _ | .enqueueSpan t _ _ | .shutdown t _ | .call t | .joinThrows t => some t
  | .worker _ _ | .timeout _ _ | .throw _ _ => none

namespace ThreadPools

variable {P τ : Type} {s u : ThreadPools P τ} {t : Thread P} {p : P}

section calls

variable [DecidableEq P]

theorem setCall_self {c : Call P τ} : (s.setCall t c).calls t = c := update_self ..

theorem setCall_of_ne {c : Call P τ} {t' : Thread P} (hne : t' ≠ t) :
    (s.setCall t c).calls t' = s.calls t' :=
  update_of_ne hne ..

theorem callStep_other {t' : Thread P} (hne : t' ≠ t) (hs : CallStep s t u) :
    u.calls t' = s.calls t' := by
  cases hs with
  | searched | refusedLocal | refusedForeign | visited => exact setCall_of_ne hne
  | seek | nextWorker => exact setCall_of_ne (s := s.setPool _ _) hne
  | _ => exact setCall_of_ne (s := s.setWorker _ _ _) hne

/-- A thread that the step does not belong to stays where it is in its call. -/
theorem step_other {m : PoolMove P τ} (hs : s.step m = some u) (hm : m.caller ≠ some t) :
    u.calls t = s.calls t := by
  have hne : ∀ {t'}, m.caller = some t' → t ≠ t' := fun ht heq => hm (heq ▸ ht)
  cases step_cases hs with
  | worker | timeout | throw => rfl
  | enqueue | enqueueSpan | joinThrows => exact setCall_of_ne (hne rfl)
  | shutdown => exact setCall_of_ne (s := s.setPool _ _) (hne rfl)
  | call hs => exact callStep_other (hne rfl) hs

end calls

/-! ### A call of `shutdown` -/

/-- A call of `shutdown` that is at the worker `i` has shut down the workers before it. -/
def ShutdownOk (s : ThreadPools P τ) : Prop :=
  ∀ t p i pc, s.calls t = .shutdown p i pc →
    (s.worker p i).Stage pc ∧ ∀ j < i, (s.worker p j).Shut

theorem ShutdownOk.clearsStopped (h : s.ShutdownOk) : s.ClearsStopped :=
  fun t p i hcall => (h t p i .clear hcall).1.2

variable [DecidableEq P]

theorem step_settles {m : PoolMove P τ} (h : s.ShutdownOk) (hs : s.step m = some u) (p : P)
    (i : ℕ) : (s.worker p i).Settles (u.worker p i) :=
  (step_pool h.clearsStopped hs).settles i

/-- Where a call of `shutdown` was a step ago: at the same place, or at the one before, or the call
has just begun. -/
inductive ShutdownFrom (s u : ThreadPools P τ) (t : Thread P) (p : P) : ℕ → ShutdownPc → Prop
  | same {i : ℕ} {pc : ShutdownPc} (hcall : s.calls t = .shutdown p i pc) :
      ShutdownFrom s u t p i pc
  | begun (habort : (u.pools p).abort = true) : ShutdownFrom s u t p 0 .before
  | step {i : ℕ} {pc : ShutdownPc} {r : Worker (P × τ) × ShutdownPc}
      (hcall : s.calls t = .shutdown p i pc) (hr : (s.worker p i).shutdownStep pc = some r)
      (hu : u.worker p i = r.1) : ShutdownFrom s u t p i r.2
  | next {i : ℕ} {pc : ShutdownPc} {r : Worker (P × τ) × ShutdownPc}
      (hcall : s.calls t = .shutdown p i pc) (hr : (s.worker p i).shutdownStep pc = some r)
      (hu : u.worker p i = r.1) (hdone : r.2 = .done) : ShutdownFrom s u t p (i + 1) .before

theorem worker_setWorker {i : ℕ} {w : Worker (P × τ)} : (s.setWorker p i w).worker p i = w := by
  simp [worker, setWorker, setPool, ThreadPool.setWorker]

omit [DecidableEq P] in
/-- The rest of an `enqueue` is no `shutdown`. -/
theorem resume_ne_shutdown (rest : Rest τ) {q : P} {i : ℕ} {pc : ShutdownPc} :
    s.resume t p rest ≠ .shutdown q i pc := by
  intro hcall
  cases rest with
  | each tasks => cases tasks <;> cases hcall
  | ranges =>
    unfold resume enqueueRanges at hcall
    dsimp only at hcall
    split_ifs at hcall

theorem callStep_shutdownFrom {i : ℕ} {pc : ShutdownPc} (hs : CallStep s t u)
    (hcall : u.calls t = .shutdown p i pc) : ShutdownFrom s u t p i pc := by
  cases hs with
  | searched =>
    rw [setCall_self] at hcall
    unfold searched at hcall
    split at hcall
    · cases hcall
    · split at hcall <;> cases hcall
  | seek | nextWorker | storedLocal | refusedLocal | refusedForeign | visited =>
    rw [setCall_self] at hcall
    cases hcall
  | @storedForeign _ _ _ rest =>
    rw [setCall_self] at hcall
    split_ifs at hcall
    exact absurd hcall (resume_ne_shutdown rest)
  | @enqueued _ _ _ rest =>
    rw [setCall_self] at hcall
    exact absurd hcall (resume_ne_shutdown rest)
  | visit hbefore _ hr =>
    rw [setCall_self] at hcall
    split_ifs at hcall with hdone
    · cases hcall
      exact .next hbefore hr worker_setWorker hdone
    · cases hcall
      exact .step hbefore hr worker_setWorker

theorem step_shutdownFrom {m : PoolMove P τ} {i : ℕ} {pc : ShutdownPc} (hs : s.step m = some u)
    (hcall : u.calls t = .shutdown p i pc) : ShutdownFrom s u t p i pc := by
  by_cases hm : m.caller = some t
  case neg => exact .same ((step_other hs hm).symm.trans hcall)
  cases step_cases hs with
  | worker | timeout | throw => cases hm
  | enqueue =>
    cases hm
    rw [setCall_self] at hcall
    unfold enqueue at hcall
    split at hcall
    · split_ifs at hcall
    · cases hcall
  | @enqueueSpan _ _ tasks _ _ hc =>
    cases hm
    rw [setCall_self] at hcall
    rw [hcall] at hc
    unfold enqueueSpan at hc
    split at hc
    · cases hc
    · split_ifs at hc
      · exact absurd (Option.some.inj hc) (resume_ne_shutdown (t := t) (.each tasks))
      · exact absurd (Option.some.inj hc) (resume_ne_shutdown (t := t) (.ranges 0 _ tasks))
  | shutdown =>
    cases hm
    rw [setCall_self] at hcall
    split_ifs at hcall
    cases hcall
    exact .begun (by simp [setCall, setPool])
  | call hs =>
    cases hm
    exact callStep_shutdownFrom hs hcall
  | joinThrows =>
    cases hm
    rw [setCall_self] at hcall
    cases hcall

/-! ### `m_abort` of a pool -/

theorem abort_setPool {q : P} {pool : ThreadPool (P × τ)}
    (hpool : (s.pools q).abort = true → pool.abort = true) (h : (s.pools p).abort = true) :
    ((s.setPool q pool).pools p).abort = true :=
  (forall_update_iff s.pools fun r x => (s.pools r).abort = true → x.abort = true).2
    ⟨hpool, fun _ _ => id⟩ p h

theorem callStep_abort (hs : CallStep s t u) (h : (s.pools p).abort = true) :
    (u.pools p).abort = true := by
  cases hs with
  | searched | refusedLocal | refusedForeign | visited => exact h
  | _ =>
    exact abort_setPool (s := s) id h

/-- `m_abort` of a pool is never reset. -/
theorem step_abort {m : PoolMove P τ} (hs : s.step m = some u) (h : (s.pools p).abort = true) :
    (u.pools p).abort = true := by
  cases step_cases hs with
  | worker hpool => exact abort_setPool hpool.abort_eq.trans h
  | timeout | throw => exact abort_setPool (s := s) id h
  | enqueue | enqueueSpan | joinThrows => exact h
  | shutdown => exact abort_setPool (fun _ => rfl) h
  | call hs => exact callStep_abort hs h

/-! ### Every run -/

theorem ShutdownOk.step {m : PoolMove P τ} (h : s.ShutdownOk) (hs : s.step m = some u) :
    u.ShutdownOk := by
  intro t p i pc hcall
  have hsettles := step_settles h hs p
  -- a worker that has been shut down stays so
  have hbefore : ∀ {i}, (∀ j < i, (s.worker p j).Shut) → ∀ j < i, (u.worker p j).Shut :=
    fun hshut j hj => (hsettles j).shut (hshut j hj)
  cases step_shutdownFrom hs hcall with
  | same hbegun =>
    obtain ⟨hstage, hshut⟩ := h t p i pc hbegun
    exact ⟨(hsettles i).stage hstage, hbefore hshut⟩
  | begun => exact ⟨trivial, fun j hj => absurd hj (Nat.not_lt_zero j)⟩
  | step hbegun hr hu =>
    obtain ⟨hstage, hshut⟩ := h t p i _ hbegun
    exact ⟨hu ▸ Worker.shutdownStep_stage hstage hr, hbefore hshut⟩
  | @next k pc' r hbegun hr hu hdone =>
    obtain ⟨hstage, hshut⟩ := h t p k pc' hbegun
    have hk : r.1.Stage .done := hdone ▸ Worker.shutdownStep_stage hstage hr
    refine ⟨trivial, fun j hj => ?_⟩
    rcases Nat.lt_succ_iff_lt_or_eq.1 hj with hj | rfl
    · exact hbefore hshut j hj
    · rw [hu]
      exact hk

/-- A call of `shutdown` that visits the workers has set `m_abort` of its pool. -/
theorem abort_of_reachable (h : Reachable s) {i : ℕ} {pc : ShutdownPc}
    (hcall : s.calls t = .shutdown p i pc) : (s.pools p).abort = true := by
  induction h generalizing i pc with
  | start hs =>
    obtain ⟨size, rfl⟩ := hs
    cases hcall
  | next _ _ hs ih =>
    cases step_shutdownFrom hs hcall with
    | begun habort => exact habort
    | same hbegun | step hbegun | next hbegun => exact step_abort hs (ih hbegun)

theorem shutdownOk_of_reachable (h : Reachable s) : s.ShutdownOk := by
  induction h with
  | start hs =>
    obtain ⟨size, rfl⟩ := hs
    intro t p i pc hcall
    cases hcall
  | next _ _ hs ih => exact ih.step hs

end ThreadPools
end Concurrencpp
