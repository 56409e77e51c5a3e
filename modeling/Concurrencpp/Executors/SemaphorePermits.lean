import Concurrencpp.Permits
import Concurrencpp.Executors.WorkerIdle
import Concurrencpp.Executors.WorkerThreadOrder

/-!
# Releases of the binary semaphores

`worker_thread_executor` and `thread_pool_worker` release a `std::binary_semaphore` when a task is
put into an empty public queue, and once more in `shutdown`.  The library requires that the count is
zero then.

A thread that comes back to a queue that is not empty takes the tasks without `acquire()`.  The
permit for these tasks stays behind, and the next task that finds the queue empty brings a second
one.  So the requirement is met in runs in which

* a thread takes the queue without waiting only while no permit is outstanding,
* no empty span is enqueued, which would bring a permit and no task, and
* `shutdown` sets `m_abort` only while no permit is outstanding.

Both classes are instances of `Permits.Guards`: `WorkerThreadExecutor.Guarded` and
`WorkerSystem.Guarded`.
-/

namespace Concurrencpp

open Interleaving Permits
open Function (update update_of_ne update_eq_self_iff)

/-! ### The worker thread executor -/

namespace WorkerThreadExecutor

variable {τ : Type} {s u : WorkerThreadExecutor τ}

def permits (s : WorkerThreadExecutor τ) : Permits ℕ :=
  ⟨s.semaphore, s.releasing, s.shutdown.releases⟩

/-- The move calls `m_semaphore.release()`. -/
def Releases (s : WorkerThreadExecutor τ) : WorkerThreadMove τ → Prop
  | .release t => s.releasing t = true
  | .shutdown => s.shutdown = .release
  | .enqueue _ _ _ | .thread | .enqueueLocal _ | .shutdownLocal => False

/-- The condition on the steps. -/
structure TakesPermit (s : WorkerThreadExecutor τ) (m : WorkerThreadMove τ) : Prop where
  take : m = .thread → s.pc = .lock → s.publicQueue ≠ [] → s.abort = false → s.permits.Free
  span : ∀ t tasks available, m = .enqueue t tasks available → s.publicQueue = [] → tasks ≠ []
  shut : m = .shutdown → s.shutdown = .lock → s.permits.Free

theorem takesPermit_enqueue {t : ℕ} {tasks : List τ} {available : Bool} (h : tasks ≠ []) :
    s.TakesPermit (.enqueue t tasks available) :=
  ⟨fun hm => (by cases hm), fun _ _ _ hm _ => (by cases hm; exact h), fun hm => (by cases hm)⟩

theorem takesPermit_thread (h : s.permits.Free) : s.TakesPermit .thread :=
  ⟨fun _ _ _ _ => h, fun _ _ _ hm => (by cases hm), fun hm => (by cases hm)⟩

def Guarded (s : WorkerThreadExecutor τ) : Prop :=
  s.permits.Guards (s.publicQueue ≠ []) (s.abort = true) (s.pc = .relock)

theorem Guarded.initial : (initial : WorkerThreadExecutor τ).Guarded :=
  Free.guards ⟨rfl, fun _ => rfl, rfl⟩ fun h => by cases h

theorem Guarded.threadStep (h : s.Guarded) (hc : s.TakesPermit .thread) (hs : ThreadStep s u) :
    u.Guarded := by
  have hquiet : u.permits = s.permits → u.publicQueue = s.publicQueue → u.abort = s.abort →
      u.pc ≠ .relock → u.Guarded := by
    intro hpermits hqueue habort hpc
    unfold Guarded
    rw [hpermits, hqueue, habort]
    exact Guards.mono h id id fun hw => absurd hw hpc
  cases hs with
  | take hpc habort hqueue =>
    have hfree : s.permits.Free := by
      rcases hpc with hpc | hpc
      · exact hc.take rfl hpc hqueue habort
      · exact (Guards.woken h hpc (by simp [habort])).1
    exact Free.guards (p := s.permits) hfree fun hw => by cases hw
  | acquire _ hsem => exact Guards.acquire (p := s.permits) h hsem
  | _ =>
    exact hquiet rfl rfl rfl fun hw => by cases hw

theorem Guarded.enqueue {t : ℕ} {tasks : List τ} {available : Bool} (h : s.Guarded)
    (ht : s.releasing t = false) (hspan : s.publicQueue = [] → tasks ≠ []) :
    Guarded { (s.enqueueForeign tasks available).1 with
      releasing := update s.releasing t ((s.enqueueForeign tasks available).2 = .release) } := by
  have hsame : update s.releasing t false = s.releasing := update_eq_self_iff.2 ht.symm
  have hpending : (s.pushForeign tasks).publicQueue ≠ [] := by
    simpa [pushForeign, stamp] using hspan
  rcases enqueueForeign_cases (s := s) tasks available with
    hcase | ⟨habort, ⟨-, hcase⟩ | ⟨hjoinable, hcase⟩ | ⟨-, hcase⟩⟩
  · rw [hcase, show decide (ForeignOutcome.runtimeShutdown = .release) = false from rfl, hsame]
    exact h
  · rw [hcase]
    cases hempty : s.publicQueue.isEmpty with
    | true =>
      -- the first task of the queue: the permit for it is promised
      have hnil : s.publicQueue = [] := List.isEmpty_iff.1 hempty
      have hopen : ¬ s.abort = true := by simp [habort]
      exact Guards.promise (p := s.permits) h (not_not.2 hnil) hopen hpending
    | false =>
      rw [show decide ((if false = true then ForeignOutcome.release else .returns) = .release) =
        false from rfl, hsame]
      exact Guards.mono (p := s.permits) h (fun _ => hpending) id id
  · rw [hcase, show decide (ForeignOutcome.returns = .release) = false from rfl, hsame]
    exact Guards.mono (p := s.permits) h (fun _ => hpending) id fun hw => by cases hw
  · rw [hcase, show decide (ForeignOutcome.threadError = .release) = false from rfl, hsame]
    exact Guards.mono (p := s.permits) h (fun _ => hpending) id id

theorem Guarded.shutdownStep (h : s.Guarded) (hok : s.Ok) (hc : s.TakesPermit .shutdown)
    (hs : ShutdownStep s u) : u.Guarded := by
  have hquiet : u.permits = s.permits → u.publicQueue = s.publicQueue → u.abort = s.abort →
      u.pc = s.pc → u.Guarded := by
    intro hpermits hqueue habort hpc
    unfold Guarded
    rw [hpermits, hqueue, habort, hpc]
    exact h
  cases hs with
  | begin hpc | store hpc | fail hpc | join hpc | skip hpc | finish hpc | destroy _ _ hpc =>
    exact hquiet (by simp [permits, hpc, WorkerThreadShutdownPc.releases]) rfl rfl rfl
  | abort hpc => exact Guards.of_closed (Free.close (hc.shut rfl hpc)) rfl
  | release hpc =>
    have habort : s.abort = true := by rw [hok.aborted, hpc]; rfl
    have hclosing : s.permits.closing = true := by
      simp [permits, hpc, WorkerThreadShutdownPc.releases]
    exact Guards.of_closed (h.atMostOne.closed hclosing) habort
  | move hpc =>
    have habort : s.abort = true := by rw [hok.aborted, hpc]; rfl
    have hone : AtMostOne ⟨s.semaphore, s.releasing, false⟩ := by
      have hclosing : s.shutdown.releases = false := by rw [hpc]; rfl
      rw [← hclosing]
      exact h.atMostOne
    exact Guards.of_closed hone habort

theorem Guarded.step {m : WorkerThreadMove τ} (h : s.Guarded) (hr : s.Reachable)
    (hc : s.TakesPermit m) (hs : s.step m = some u) : u.Guarded := by
  obtain ⟨hok, hbegun⟩ := ok_of_reachable hr
  cases m <;> simp only [WorkerThreadExecutor.step] at hs
  case enqueue t tasks available =>
    split_ifs at hs with ht
    cases hs
    exact h.enqueue (Bool.eq_false_iff.2 ht) (hc.span t tasks available rfl)
  case release =>
    split_ifs at hs with ht
    cases hs
    exact Guards.release (p := s.permits) h ht
  case thread =>
    split_ifs at hs
    exact h.threadStep hc (threadStep_cases hs)
  case enqueueLocal =>
    split_ifs at hs
    cases hs
    unfold WorkerThreadExecutor.enqueueLocal
    split_ifs <;> exact h
  case shutdownLocal =>
    split_ifs at hs with hcond
    cases hs
    have hclosing : s.shutdown.releases = false := by rw [hbegun hcond.2]; rfl
    have hguards : Guards ⟨s.semaphore, s.releasing, false⟩ (s.publicQueue ≠ [])
        (s.abort = true) (s.pc = .relock) := by
      rw [← hclosing]
      exact h
    exact hguards
  case shutdown => exact h.shutdownStep hok hc (shutdownStep_cases hs)

theorem guarded_of_reach (h : Reach step IsInitial TakesPermit s) : s.Guarded := by
  induction h with
  | start hs =>
    obtain rfl := hs
    exact Guarded.initial
  | next hr hc hs ih => exact ih.step hr.reachable hc hs

theorem semaphore_of_releases {m : WorkerThreadMove τ} (h : Reach step IsInitial TakesPermit s)
    (hm : s.Releases m) : s.semaphore = 0 := by
  have hone := (guarded_of_reach h).atMostOne
  cases m with
  | release => exact hone.count_of_releasing hm
  | shutdown =>
    refine hone.count_of_closing ?_
    simp only [permits]
    rw [show s.shutdown = .release from hm]
    rfl
  | _ => exact hm.elim

end WorkerThreadExecutor

/-! ### The worker of a thread pool -/

/-- The thread has taken a permit and has not looked at the queue. -/
def WorkerPc.woken : WorkerPc → Bool
  | .loadFound | .relock | .markActive => true
  | .stopped | .lock | .markIdle | .acquire | .timedOut | .loop | .balance _ | .checkAbort
  | .running
  | .aborted | .caught => false

/-- The enqueuer is about to release the semaphore. -/
def EnqueuerPc.releases : EnqueuerPc → Bool
  | .release => true
  | .outside | .join => false

/-- The call is between the critical section that sets `m_abort` and its release. -/
def ShutdownPc.releases : ShutdownPc → Bool
  | .storeFound | .release => true
  | .before | .storeAbort | .join | .clear | .done => false

namespace WorkerSystem

variable {τ : Type} {s u : WorkerSystem τ} {w v : Worker τ}

def permits (s : WorkerSystem τ) : Permits ℕ :=
  ⟨s.worker.semaphore, EnqueuerPc.releases ∘ s.enqueuers, s.shutdown.releases⟩

/-- The move calls `m_semaphore.release()`. -/
def Releases (s : WorkerSystem τ) : WorkerMove τ → Prop
  | .enqueuer k => s.enqueuers k = .release
  | .shutdown => s.shutdown = .release
  | .thread _ | .enqueue _ _ => False

/-- The condition on the steps. -/
structure TakesPermit (s : WorkerSystem τ) (m : WorkerMove τ) : Prop where
  take : m = .thread .step → s.worker.pc = .lock → s.worker.publicQueue ≠ [] →
    s.worker.abort = false → s.permits.Free
  span : ∀ k tasks, m = .enqueue k tasks → s.worker.publicQueue = [] → tasks ≠ []
  shut : m = .shutdown → s.shutdown = .storeAbort → s.permits.Free

theorem takesPermit_enqueue {k : ℕ} {tasks : List (Option τ)} (h : tasks ≠ []) :
    s.TakesPermit (.enqueue k tasks) :=
  ⟨fun hm => (by cases hm), fun _ _ hm _ => (by cases hm; exact h), fun hm => (by cases hm)⟩

theorem takesPermit_thread {m : ThreadMove τ} (h : s.permits.Free) : s.TakesPermit (.thread m) :=
  ⟨fun _ _ _ _ => h, fun _ _ hm => (by cases hm), fun hm => (by cases hm)⟩

def Guarded (s : WorkerSystem τ) : Prop :=
  s.permits.Guards (s.worker.publicQueue ≠ []) (s.worker.abort = true) (s.worker.pc.woken = true)

theorem Guarded.initial : (initial : WorkerSystem τ).Guarded :=
  Free.guards ⟨rfl, fun _ => rfl, rfl⟩ fun h => by cases h

/-- What a step of the thread does to the semaphore and the public queue: nothing, or it takes a
permit, or it takes the queue. -/
inductive PermitStep (w v : Worker τ) (m : ThreadMove τ) : Prop
  | quiet (hsem : v.semaphore = w.semaphore) (hqueue : v.publicQueue = w.publicQueue)
      (habort : v.abort = w.abort) (hpc : v.pc.woken = true → w.pc.woken = true)
  | acquire (hcount : w.semaphore ≠ 0) (hsem : v.semaphore = w.semaphore - 1)
      (hqueue : v.publicQueue = w.publicQueue) (habort : v.abort = w.abort)
  | take (hpc : m = .step ∧ w.pc = .lock ∧ w.publicQueue ≠ [] ∨ w.pc.woken = true)
      (hopen : w.abort = false) (hsem : v.semaphore = w.semaphore) (habort : v.abort = w.abort)
      (hpc' : v.pc.woken = false)

theorem takeQueue_permitStep
    (hpc : w.abort = false → w.pc = .lock ∧ w.publicQueue ≠ [] ∨ w.pc.woken = true) :
    PermitStep w w.takeQueue .step := by
  unfold Worker.takeQueue
  cases habort : w.abort with
  | true => exact .quiet rfl rfl rfl fun h => by cases h
  | false => exact .take ((hpc habort).imp_left fun h => ⟨rfl, h⟩) habort rfl rfl rfl

theorem nextStep_permitStep (hs : w.nextStep = some v) : PermitStep w v .step := by
  cases hpc : w.pc <;> simp only [Worker.nextStep, hpc] at hs
  case stopped => cases hs
  case lock =>
    split_ifs at hs with hcond <;> cases hs
    · refine takeQueue_permitStep fun habort => .inl ⟨hpc, ?_⟩
      exact hcond.resolve_right (by simp [habort])
    · exact .quiet rfl rfl rfl fun h => by cases h
  case acquire =>
    split_ifs at hs with hsem
    cases hs
    exact .acquire hsem rfl rfl rfl
  case loadFound =>
    cases hs
    exact .quiet rfl rfl rfl fun _ => by rw [hpc]; rfl
  case relock =>
    split_ifs at hs <;> cases hs <;> exact .quiet rfl rfl rfl fun _ => by rw [hpc]; rfl
  case markActive =>
    cases hs
    exact takeQueue_permitStep fun _ => .inr (by rw [hpc]; rfl)
  case checkAbort =>
    split_ifs at hs <;> cases hs <;> exact .quiet rfl rfl rfl fun h => by cases h
  case loop =>
    cases hs
    refine .quiet rfl rfl rfl fun h => ?_
    change (if w.privateQueue = [] then WorkerPc.lock else .balance 0).woken = true at h
    split_ifs at h <;> cases h
  case markIdle | timedOut | balance | running | aborted | caught =>
    cases hs
    exact .quiet rfl rfl rfl fun h => by cases h

theorem threadStep_permitStep {m : ThreadMove τ} (hs : w.threadStep m = some v) :
    PermitStep w v m := by
  cases m with
  | step => exact nextStep_permitStep hs
  | timeout =>
    simp only [Worker.threadStep] at hs
    split_ifs at hs
    cases hs
    exact .quiet rfl rfl rfl fun h => by cases h
  | give =>
    simp only [Worker.threadStep, Worker.give] at hs
    split at hs
    · split_ifs at hs
      cases hs
      exact .quiet rfl rfl rfl fun h => by cases h
    · cases hs
  | throw =>
    simp only [Worker.threadStep, Worker.throw] at hs
    split at hs <;> cases hs <;> exact .quiet rfl rfl rfl fun h => by cases h
  | enqueueLocal =>
    simp only [Worker.threadStep, Worker.enqueueLocal] at hs
    split_ifs at hs
    cases hs
    exact .quiet rfl rfl rfl id

theorem Guarded.thread {m : ThreadMove τ} (h : s.Guarded) (hc : s.TakesPermit (.thread m))
    (hs : PermitStep s.worker v m) : Guarded { s with worker := v } := by
  unfold Guarded permits
  cases hs with
  | quiet hsem hqueue habort hpc =>
    simp only [hsem, hqueue, habort]
    exact Guards.mono (p := s.permits) h id id hpc
  | acquire hcount hsem hqueue habort =>
    simp only [hsem, hqueue, habort]
    exact Guards.acquire (p := s.permits) h hcount
  | take hpc hopen hsem _ hpc' =>
    have hfree : s.permits.Free := by
      rcases hpc with ⟨rfl, hlock, hqueue⟩ | hwoken
      · exact hc.take rfl hlock hqueue hopen
      · exact (Guards.woken h hwoken (by simp [hopen])).1
    simp only [hsem]
    refine Free.guards (p := s.permits) hfree ?_
    simp [hpc']

variable {p : Worker τ × EnqueuerPc}

theorem permits_setEnqueuer {k : ℕ} : (s.setEnqueuer k p).permits = { s.permits with
      count := p.1.semaphore
      releasing := update s.permits.releasing k p.2.releases } := by
  have hreleasing : EnqueuerPc.releases ∘ update s.enqueuers k p.2 =
      update (EnqueuerPc.releases ∘ s.enqueuers) k p.2.releases := Function.comp_update ..
  simp only [permits, setEnqueuer, hreleasing]

theorem releasing_eq {k : ℕ} {pc : EnqueuerPc} (hk : s.enqueuers k = pc) :
    s.permits.releasing k = pc.releases := congrArg EnqueuerPc.releases hk

theorem Guarded.enqueue {k : ℕ} {tasks : List (Option τ)} (h : s.Guarded)
    (hk : s.enqueuers k = .outside) (hspan : s.worker.publicQueue = [] → tasks ≠ [])
    (hp : s.worker.enqueueForeign tasks = some p) :
    (s.setEnqueuer k p).Guarded := by
  have hsame : update s.permits.releasing k false = s.permits.releasing :=
    update_eq_self_iff.2 (releasing_eq hk).symm
  have hpending : s.worker.publicQueue ++ tasks ≠ [] := by simpa using hspan
  unfold Guarded
  rw [permits_setEnqueuer]
  unfold Worker.enqueueForeign at hp
  split_ifs at hp with habort hidle hempty <;> cases hp
  · simp only [EnqueuerPc.releases, hsame]
    exact Guards.mono h (fun _ => hpending) id fun hw => by cases hw
  · -- the first task of the queue: the permit for it is promised
    have hnil : s.worker.publicQueue = [] := List.isEmpty_iff.1 hempty
    exact Guards.promise h (not_not.2 hnil) habort hpending
  · simp only [EnqueuerPc.releases, hsame]
    exact Guards.mono h (fun _ => hpending) id id

theorem Guarded.enqueuer {k : ℕ} (h : s.Guarded)
    (hp : s.worker.enqueuerStep (s.enqueuers k) = some p) : (s.setEnqueuer k p).Guarded := by
  unfold Guarded
  rw [permits_setEnqueuer]
  cases hk : s.enqueuers k with
  | outside =>
    rw [hk] at hp
    cases hp
  | release =>
    rw [hk] at hp
    cases hp
    exact Guards.release h (releasing_eq hk)
  | join =>
    have hsame : update s.permits.releasing k false = s.permits.releasing :=
      update_eq_self_iff.2 (releasing_eq hk).symm
    rw [hk] at hp
    cases hp
    simp only [EnqueuerPc.releases, hsame]
    exact h

/-- `m_abort` stays set behind the critical section of `shutdown`. -/
def Aborted (s : WorkerSystem τ) : Prop :=
  s.shutdown = .before ∨ s.shutdown = .storeAbort ∨ s.worker.abort = true

theorem Guarded.shutdownStep {p : Worker τ × ShutdownPc} (h : s.Guarded) (ha : s.Aborted)
    (hc : s.TakesPermit .shutdown) (hp : s.worker.shutdownStep s.shutdown = some p) :
    Guarded { s with worker := p.1, shutdown := p.2 } ∧
      Aborted { s with worker := p.1, shutdown := p.2 } := by
  have hone := h.atMostOne
  unfold Aborted at ha
  generalize hpc : s.shutdown = pc at ha hp
  cases Worker.shutdownStep_cases hp with
  | before =>
    have hguarded : s.Guarded := h
    simp only [Guarded, permits, hpc, ShutdownPc.releases] at hguarded
    exact ⟨hguarded, .inr (.inl rfl)⟩
  | storeAbort =>
    have hfree := hc.shut rfl hpc
    exact ⟨Guards.of_closed (Free.close hfree) rfl, .inr (.inr rfl)⟩
  | storeFound | join | clear =>
    simp only [permits, hpc, ShutdownPc.releases] at hone
    simp only [reduceCtorEq, false_or] at ha
    exact ⟨Guards.of_closed hone ha, .inr (.inr ha)⟩
  | release =>
    have hclosed := hone.closed (by simp [permits, hpc, ShutdownPc.releases])
    simp only [reduceCtorEq, false_or] at ha
    exact ⟨Guards.of_closed hclosed ha, .inr (.inr ha)⟩

theorem Guarded.step {m : WorkerMove τ} (h : s.Guarded) (ha : s.Aborted) (hc : s.TakesPermit m)
    (hs : s.step m = some u) : u.Guarded ∧ u.Aborted := by
  cases m with
  | thread =>
    obtain ⟨v, hv, rfl⟩ := Option.map_eq_some_iff.1 hs
    have hstep := threadStep_permitStep hv
    refine ⟨h.thread hc hstep, ha.imp_right (Or.imp_right fun habort => ?_)⟩
    cases hstep with
    | quiet _ _ hsame | acquire _ _ _ hsame | take _ _ _ hsame => exact hsame.trans habort
  | enqueue k tasks =>
    simp only [WorkerSystem.step] at hs
    split_ifs at hs with hcond
    obtain ⟨p, hp, rfl⟩ := Option.map_eq_some_iff.1 hs
    refine ⟨h.enqueue hcond.1 (hc.span k tasks rfl) hp,
      ha.imp_right (Or.imp_right fun habort => ?_)⟩
    cases habort.symm.trans (Worker.abort_of_accepts (Worker.enqueueForeign_accepts hp))
  | enqueuer =>
    obtain ⟨p, hp, rfl⟩ := Option.map_eq_some_iff.1 hs
    refine ⟨h.enqueuer hp, ha.imp_right (Or.imp_right fun habort => ?_)⟩
    exact (enqueuerStep_frame hp).2.2.1.trans habort
  | shutdown =>
    obtain ⟨p, hp, rfl⟩ := Option.map_eq_some_iff.1 hs
    exact h.shutdownStep ha hc hp

theorem guarded_of_reach (h : Reach step IsInitial TakesPermit s) : s.Guarded ∧ s.Aborted := by
  induction h with
  | start hs =>
    obtain rfl := hs
    exact ⟨Guarded.initial, .inl rfl⟩
  | next _ hc hs ih => exact ih.1.step ih.2 hc hs

theorem semaphore_of_releases {m : WorkerMove τ} (h : Reach step IsInitial TakesPermit s)
    (hm : s.Releases m) : s.worker.semaphore = 0 := by
  have hone := (guarded_of_reach h).1.atMostOne
  cases m with
  | enqueuer => exact hone.count_of_releasing (releasing_eq hm)
  | shutdown =>
    refine hone.count_of_closing ?_
    simp only [permits]
    rw [show s.shutdown = .release from hm]
    rfl
  | thread | enqueue => exact hm.elim

end WorkerSystem

/-! ### The two semaphores -/

variable {τ : Type}

/-- **The semaphores are not over-released** in runs of a worker thread executor and of a worker of
a thread pool in which a thread takes the queue without waiting, and `shutdown` sets `m_abort`, only
while no permit is outstanding, and in which no empty span is enqueued: whenever `release()` is
called, the count is zero. -/
theorem release_finds_zero (s : WorkerThreadExecutor τ) (u : WorkerSystem τ)
    (hs : Reach WorkerThreadExecutor.step WorkerThreadExecutor.IsInitial
      WorkerThreadExecutor.TakesPermit s)
    (hu : Reach WorkerSystem.step WorkerSystem.IsInitial WorkerSystem.TakesPermit u) :
    (∀ m, s.Releases m → s.semaphore = 0) ∧ ∀ m, u.Releases m → u.worker.semaphore = 0 :=
  ⟨fun _ hm => WorkerThreadExecutor.semaphore_of_releases hs hm,
    fun _ hm => WorkerSystem.semaphore_of_releases hu hm⟩

/-- The executor behind the first `enqueue`, and behind the second one, when the thread has taken
the first task. -/
def WorkerThreadExecutor.firstTask : WorkerThreadExecutor ℕ :=
  { (WorkerThreadExecutor.initial.enqueueForeign [10] true).1 with
    releasing := update (fun _ => false) 0 false }

def WorkerThreadExecutor.secondTask : WorkerThreadExecutor ℕ :=
  { (WorkerThreadExecutor.firstTask.takeQueue.enqueueForeign [11] true).1 with
    releasing := update WorkerThreadExecutor.firstTask.releasing 0 true }

theorem WorkerThreadExecutor.reach_secondTask :
    Reach WorkerThreadExecutor.step WorkerThreadExecutor.IsInitial WorkerThreadExecutor.TakesPermit
      secondTask := by
  have hnone : ∀ t : ℕ, firstTask.releasing t = false := by
    intro t
    change update (fun _ => false) 0 false t = false
    rw [update_eq_self_iff.2 rfl]
  have h₁ : Reach WorkerThreadExecutor.step WorkerThreadExecutor.IsInitial
      WorkerThreadExecutor.TakesPermit firstTask :=
    .next (a := .enqueue 0 [10] true) (.start rfl)
      (takesPermit_enqueue (List.cons_ne_nil 10 [])) rfl
  have h₂ : Reach WorkerThreadExecutor.step WorkerThreadExecutor.IsInitial
      WorkerThreadExecutor.TakesPermit firstTask.takeQueue :=
    h₁.next (takesPermit_thread ⟨rfl, hnone, rfl⟩) rfl
  exact h₂.next (a := .enqueue 0 [11] true) (takesPermit_enqueue (List.cons_ne_nil 11 [])) rfl

/-- The same for a worker of a pool. -/
def WorkerSystem.firstTask : WorkerSystem ℕ :=
  WorkerSystem.initial.setEnqueuer 0 ({ Worker.initial with
    taskFoundOrAbort := true
    publicQueue := [some 10]
    idle := false
    pc := .lock }, .join)

def WorkerSystem.secondTask : WorkerSystem ℕ :=
  { WorkerSystem.firstTask with worker := WorkerSystem.firstTask.worker.takeQueue }.setEnqueuer 1
    ({ WorkerSystem.firstTask.worker.takeQueue with
      taskFoundOrAbort := true
      publicQueue := [some 11] }, .release)

theorem WorkerSystem.reach_secondTask :
    Reach WorkerSystem.step WorkerSystem.IsInitial WorkerSystem.TakesPermit secondTask := by
  have hnone : ∀ t : ℕ, (firstTask.enqueuers t).releases = false := by
    intro t
    change (update (fun _ => EnqueuerPc.outside) 0 EnqueuerPc.join t).releases = false
    by_cases ht : t = 0
    · subst ht
      rfl
    · rw [update_of_ne ht]
      rfl
  have h₁ : Reach WorkerSystem.step WorkerSystem.IsInitial WorkerSystem.TakesPermit firstTask :=
    .next (a := .enqueue 0 [some 10]) (.start rfl)
      (takesPermit_enqueue (List.cons_ne_nil (some 10) [])) rfl
  have h₂ : Reach WorkerSystem.step WorkerSystem.IsInitial WorkerSystem.TakesPermit
      { firstTask with worker := firstTask.worker.takeQueue } :=
    h₁.next (a := .thread .step) (takesPermit_thread ⟨rfl, hnone, rfl⟩) rfl
  exact h₂.next (a := .enqueue 1 [some 11])
    (takesPermit_enqueue (List.cons_ne_nil (some 11) [])) rfl

/-- A thread has taken its first task, and the second one is on its way: the condition is met,
although the thread has not waited. -/
theorem release_finds_zero_of_second_task :
    WorkerThreadExecutor.secondTask.Releases (.release 0) ∧
      WorkerThreadExecutor.secondTask.semaphore = 0 ∧
      WorkerSystem.secondTask.Releases (.enqueuer 1) ∧
      WorkerSystem.secondTask.worker.semaphore = 0 := by
  obtain ⟨hzero, hzero'⟩ :=
    release_finds_zero WorkerThreadExecutor.secondTask WorkerSystem.secondTask
    WorkerThreadExecutor.reach_secondTask WorkerSystem.reach_secondTask
  have hs : WorkerThreadExecutor.secondTask.Releases (.release 0) := rfl
  have hu : WorkerSystem.secondTask.Releases (.enqueuer 1) := rfl
  exact ⟨hs, hzero _ hs, hu, hzero' _ hu⟩

/-- A thread that has come back to its queue takes a second task without `acquire()`; the third task
then finds the queue empty, and the permit for the second one is still there. -/
theorem release_finds_one :
    (∃ s : WorkerThreadExecutor ℕ, s.Reachable ∧ s.Releases (.release 0) ∧ s.semaphore = 1) ∧
    ∃ u : WorkerSystem ℕ, u.Reachable ∧ u.Releases (.enqueuer 0) ∧ u.worker.semaphore = 1 := by
  let schedule : List (WorkerThreadMove ℕ) :=
    [.enqueue 0 [10] true, .thread, .enqueue 0 [11] true, .release 0] ++
      List.replicate 5 .thread ++ [.enqueue 0 [12] true]
  let moves : List (WorkerMove ℕ) :=
    [.enqueue 0 [some 10], .enqueuer 0, .thread .step, .enqueue 0 [some 11], .enqueuer 0] ++
      List.replicate 6 (.thread .step) ++ [.enqueue 0 [some 12]]
  have hs : (lastState WorkerThreadExecutor.step .initial schedule).releasing 0 = true := by
    decide +kernel
  have hu : (lastState WorkerSystem.step .initial moves).enqueuers 0 = .release := by decide +kernel
  exact ⟨⟨_, .lastState (by rfl) schedule, hs, by decide +kernel⟩,
    ⟨_, .lastState (by rfl) moves, hu, by decide +kernel⟩⟩

end Concurrencpp
