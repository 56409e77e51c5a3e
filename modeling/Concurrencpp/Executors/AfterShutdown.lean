import Concurrencpp.Executors.PoolShutdown
import Concurrencpp.Executors.TaskOwnership

/-!
# Calls on a pool that has been shut down

`enqueue` does not look at `m_abort` of the pool: the exception comes out of the worker that the
routing leads to.  `PoolHistory` keeps, along a run of all pools, on which of them a call of
`shutdown` has returned, which calls of `enqueue` were made later, and how the calls have come out.

* `PoolHistory.accepts_nothing`: the calls that lead to a worker of the pool end with the exception,
  after a bounded number of steps that nobody can hold up, and leave every queue as it is.
* `PoolHistory.accepts_after_shutdown`: a span without tasks, a thread of another pool and a second
  call of `shutdown` while the first is still at work, where they do not.
-/

namespace Concurrencpp

open Interleaving

/-- How the last call of a thread has come out; `threw` is an `errors::runtime_shutdown`. -/
inductive Outcome
  | pending
  | returned
  | threw
  deriving DecidableEq, Repr

namespace ThreadPools

variable {P τ : Type}

/-- The next step of the thread throws, if it ends the call: it is at the check of `enqueue_local`
or `enqueue_foreign`, and the worker is aborted, or at the `join` of `shutdown`. -/
def throws (s : ThreadPools P τ) (t : Thread P) : Bool :=
  match s.calls t with
  | .enqueueLocal _ _ => t.thisWorker.any fun this => (s.worker this.1 this.2).atomicAbort
  | .enqueueForeign p index _ _ => (s.worker p index).abort
  | .shutdown _ _ .join => true
  | _ => false

/-- The thread belongs to no worker, or to one that is aborted. -/
def ownAborted (s : ThreadPools P τ) (t : Thread P) : Bool :=
  t.thisWorker.all fun this => (s.worker this.1 this.2).atomicAbort

/-- The outcome of the call of `t` when its step leads from `s` to `u`. -/
def outcome (s u : ThreadPools P τ) (t : Thread P) : Outcome :=
  match u.calls t with
  | .outside => if s.throws t then .threw else .returned
  | _ => .pending

/-- In this step a call of `shutdown` on `p` returns: it finds `m_abort` set, or has visited all
workers. -/
def shutdownReturns [DecidableEq P] (s : ThreadPools P τ) (p : P) : PoolMove P τ → Bool
  | .shutdown _ q => decide (q = p) && (s.pools p).abort
  | .call t =>
      match s.calls t with
      | .shutdown q i _ => decide (q = p ∧ (s.pools p).size ≤ i)
      | _ => false
  | _ => false

end ThreadPools

/-- All pools with a record of the calls.  `shutDown p`: a call of `shutdown` on `p` has returned.
`late t`: the last call of `t` is an `enqueue` on a pool of which this was true already. -/
structure PoolHistory (P τ : Type) where
  system : ThreadPools P τ
  shutDown : P → Bool
  late : Thread P → Bool
  outcome : Thread P → Outcome

namespace PoolHistory

variable {P τ : Type} [DecidableEq P] {h u : PoolHistory P τ} {t : Thread P} {p : P}

/-- New pools. -/
def initial (size : P → ℕ) : PoolHistory P τ where
  system := .initial size
  shutDown := fun _ => false
  late := fun _ => false
  outcome := fun _ => .returned

def IsInitial (h : PoolHistory P τ) : Prop := ∃ size, h = initial size

/-- The calls that are late after the step. -/
def lateAfter (h : PoolHistory P τ) : PoolMove P τ → Thread P → Bool
  | .enqueue t p _ | .enqueueSpan t p _ => Function.update h.late t (h.shutDown p)
  | .shutdown t _ => Function.update h.late t false
  | .worker _ _ | .timeout _ _ | .throw _ _ | .call _ | .joinThrows _ => h.late

/-- The step has led to `v`. -/
def record (h : PoolHistory P τ) (m : PoolMove P τ) (v : ThreadPools P τ) : PoolHistory P τ where
  system := v
  shutDown := fun p => h.shutDown p || h.system.shutdownReturns p m
  late := h.lateAfter m
  outcome := fun t => if m.caller = some t then h.system.outcome v t else h.outcome t

/-- One step of the pools. -/
def step (h : PoolHistory P τ) (m : PoolMove P τ) : Option (PoolHistory P τ) :=
  (h.system.step m).map (h.record m)

/-- The step begins a late call, or belongs to one. -/
def LateMove (h : PoolHistory P τ) : PoolMove P τ → Prop
  | .enqueue _ p _ | .enqueueSpan _ p _ => h.shutDown p = true
  | .call t => h.late t = true
  | _ => False

/-- A late search that ends without an idle worker leads a thread to its own worker. -/
def FindAdmitted (h : PoolHistory P τ) (t : Thread P) : Call P τ → Prop
  | .find _ _ _ q => q.pc = .done → q.found ≠ [] ∨ h.system.ownAborted t = true
  | _ => True

/-- The routing of late calls leads to a worker that can refuse: a thread that is led to the
`enqueue_local` of its own worker finds it aborted; where it is led to the pool, this has workers,
and a span has tasks.  A second call of `shutdown` is made only when the first has returned. -/
def Admitted (h : PoolHistory P τ) : PoolMove P τ → Prop
  | .enqueue t p _ => h.shutDown p = true →
      if t.thisWorker.any fun this => (h.system.worker this.1 this.2).appearsEmpty then
        h.system.ownAborted t = true
      else 0 < (h.system.pools p).size
  | .enqueueSpan t p tasks => h.shutDown p = true →
      if t.thisWorker.isSome then h.system.ownAborted t = true
      else 0 < (h.system.pools p).size ∧ tasks ≠ []
  | .shutdown _ p => (h.system.pools p).abort = true → h.shutDown p = true
  | .call t => h.late t = true → h.FindAdmitted t (h.system.calls t)
  | _ => True

instance (h : PoolHistory P τ) (t : Thread P) : (c : Call P τ) → Decidable (h.FindAdmitted t c)
  | .find _ _ _ _ => inferInstanceAs (Decidable (_ → _))
  | .outside | .nextWorker _ _ _ | .enqueueLocal _ _ | .enqueueForeign _ _ _ _ | .enqueued _ _ _ _
  | .shutdown _ _ _ => .isTrue trivial

instance (h : PoolHistory P τ) : (m : PoolMove P τ) → Decidable (h.Admitted m)
  | .enqueue _ _ _ | .enqueueSpan _ _ _ | .shutdown _ _ | .call _ =>
      inferInstanceAs (Decidable (_ → _))
  | .worker _ _ | .timeout _ _ | .throw _ _ | .joinThrows _ => .isTrue trivial

/-- How many steps a call of `enqueue` has left at most, on a pool that refuses it. -/
def callStepsLeft (size : P → ℕ) : Call P τ → ℕ
  | .find p _ _ q => IdleWorkerSet.stepsLeft (size p) q + 3
  | .nextWorker _ _ _ => 2
  | .enqueueLocal _ _ | .enqueueForeign _ _ _ _ => 1
  | .outside | .enqueued _ _ _ _ | .shutdown _ _ _ => 0

def stepsLeft (h : PoolHistory P τ) (t : Thread P) : ℕ :=
  callStepsLeft (fun p => (h.system.pools p).size) (h.system.calls t)

/-! ### What a late call finds -/

/-- A late call on its way: its pool has been shut down and has workers, or the thread is about to
be refused by its own worker. -/
def LateCall (h : PoolHistory P τ) (t : Thread P) : Call P τ → Prop
  | .find p _ _ _ | .nextWorker p _ _ => h.shutDown p = true ∧ 0 < (h.system.pools p).size
  | .enqueueForeign p index _ _ => h.shutDown p = true ∧ index < (h.system.pools p).size
  | .enqueueLocal _ _ => h.system.ownAborted t = true ∧ t.thisWorker.isSome = true
  | .outside | .enqueued _ _ _ _ | .shutdown _ _ _ => False

/-- What holds along an admitted run. -/
structure Ok (h : PoolHistory P τ) : Prop where
  aborted : ∀ p, h.shutDown p = true → (h.system.pools p).abort = true
  shut : ∀ p, h.shutDown p = true → ∀ i < (h.system.pools p).size, (h.system.worker p i).Shut
  calls : ∀ t, h.late t = true →
    h.system.calls t = .outside ∧ h.outcome t = .threw ∨
      h.LateCall t (h.system.calls t) ∧ h.outcome t = .pending

omit [DecidableEq P] in
theorem ownAborted_mono {s v : ThreadPools P τ}
    (hatomic : ∀ q j, (s.worker q j).atomicAbort = true → (v.worker q j).atomicAbort = true)
    (ht : s.ownAborted t = true) : v.ownAborted t = true := by
  unfold ThreadPools.ownAborted at ht ⊢
  cases hthis : t.thisWorker with
  | none => rfl
  | some this =>
    rw [hthis] at ht
    exact hatomic this.1 this.2 ht

omit [DecidableEq P] in
theorem LateCall.mono {c : Call P τ} (hc : h.LateCall t c)
    (hshut : ∀ p, h.shutDown p = true → u.shutDown p = true)
    (hsize : ∀ p, (u.system.pools p).size = (h.system.pools p).size)
    (hown : h.system.ownAborted t = true → u.system.ownAborted t = true) : u.LateCall t c := by
  cases c with
  | find p | nextWorker p | enqueueForeign p =>
    exact ⟨hshut p hc.1, (hsize p).symm ▸ hc.2⟩
  | enqueueLocal => exact ⟨hown hc.1, hc.2⟩
  | _ => exact hc.elim

/-- What the next step of a late call leads to: the exception, or a place nearer to it; the workers
stay as they are. -/
structure Refuses (h : PoolHistory P τ) (t : Thread P) (v : ThreadPools P τ) : Prop where
  workers : ∀ q i, v.worker q i = h.system.worker q i
  sizes : ∀ q, (v.pools q).size = (h.system.pools q).size
  outcome : v.calls t = .outside ∧ h.system.throws t = true ∨
    h.LateCall t (v.calls t) ∧
      callStepsLeft (fun p => (h.system.pools p).size) (v.calls t) < h.stepsLeft t

theorem refuses_setCall {s : ThreadPools P τ} {c : Call P τ}
    (hworkers : ∀ q i, s.worker q i = h.system.worker q i)
    (hsizes : ∀ q, (s.pools q).size = (h.system.pools q).size)
    (hc : c = .outside ∧ h.system.throws t = true ∨
      h.LateCall t c ∧ callStepsLeft (fun p => (h.system.pools p).size) c < h.stepsLeft t) :
    h.Refuses t (s.setCall t c) where
  workers := hworkers
  sizes := hsizes
  outcome := by
    rw [ThreadPools.setCall_self]
    exact hc

/-- A change of one pool that leaves its workers and its size as they are. -/
theorem same_setPool (s : ThreadPools P τ) (p : P) (pool : ThreadPool (P × τ))
    (hworkers : pool.workers = (s.pools p).workers) (hsize : pool.size = (s.pools p).size) :
    (∀ q i, (s.setPool p pool).worker q i = s.worker q i) ∧
      ∀ q, ((s.setPool p pool).pools q).size = (s.pools q).size := by
  refine forall_and.1 ((Function.forall_update_iff s.pools fun q pool' =>
    (∀ i, pool'.workers i = s.worker q i) ∧ pool'.size = (s.pools q).size).2 ⟨?_, ?_⟩)
  · exact ⟨congrFun hworkers, hsize⟩
  · exact fun q _ => ⟨fun _ => rfl, rfl⟩

/-- **The step of a late call.**  It can always be made. -/
theorem LateCall.refuses (hok : h.Ok)
    (hrange : ThreadPools.InRange (fun p => (h.system.pools p).size) h.system)
    (hc : h.LateCall t (h.system.calls t)) (hentered : h.FindAdmitted t (h.system.calls t)) :
    ∃ v, h.system.callStep t = some v ∧ h.Refuses t v := by
  have hleft : h.stepsLeft t =
      callStepsLeft (fun p => (h.system.pools p).size) (h.system.calls t) := rfl
  unfold ThreadPools.callStep
  cases hcall : h.system.calls t with
  | outside | enqueued | shutdown =>
    rw [hcall] at hc
    exact hc.elim
  | find p _ _ q =>
    rw [hcall] at hc hentered hleft
    refine ⟨_, rfl, ?_⟩
    unfold ThreadPools.findStep
    dsimp only
    split_ifs with hdone
    · -- the search has ended
      refine refuses_setCall (fun _ _ => rfl) (fun _ => rfl) (.inr ?_)
      have hq : IdleWorkerSet.SearchOk (h.system.pools p).size q := by
        have hcallOk := hrange.calls t
        rw [hcall] at hcallOk
        exact hcallOk
      cases hfound : q.found with
      | cons index =>
        have hindex : index < (h.system.pools p).size := hq.found_lt index (by simp [hfound])
        exact ⟨⟨hc.1, hindex⟩, by rw [hleft]; simp [ThreadPools.searched, callStepsLeft]⟩
      | nil =>
        unfold ThreadPools.searched
        cases hthis : t.thisWorker with
        | none => exact ⟨hc, by rw [hleft]; simp [callStepsLeft]⟩
        | some =>
          have hown : h.system.ownAborted t = true :=
            (hentered hdone).elim (fun hne => absurd hfound hne) id
          exact ⟨⟨hown, by rw [hthis]; rfl⟩, by rw [hleft]; simp [callStepsLeft]⟩
    · have hsame := same_setPool h.system p
        { h.system.pools p with idleWorkers := ((h.system.pools p).idleWorkers.searchStep q).1 } rfl
        (IdleWorkerSet.searchStep_size _ _)
      refine refuses_setCall hsame.1 hsame.2 (.inr ⟨hc, ?_⟩)
      have hstep := (h.system.pools p).idleWorkers.searchStep_stepsLeft hdone
      rw [hleft]
      exact Nat.add_lt_add_right hstep 3
  | nextWorker p =>
    rw [hcall] at hc hleft
    have hsame := same_setPool h.system p
      { h.system.pools p with
        roundRobinCursor := ((h.system.pools p).roundRobinCursor + 1) % 2 ^ 64 } rfl rfl
    refine ⟨_, if_neg hc.2.ne', refuses_setCall hsame.1 hsame.2 (.inr ⟨?_, ?_⟩)⟩
    · exact ⟨hc.1, Nat.mod_lt _ hc.2⟩
    · rw [hleft]
      simp [callStepsLeft]
  | enqueueForeign p index tasks =>
    rw [hcall] at hc
    have hshut := hok.shut p hc.1 index hc.2
    have hfree : (h.system.worker p index).lockFree = true := by
      simp [Worker.lockFree, hshut.stopped]
    have hrefuse : (h.system.worker p index).enqueueForeign (ThreadPools.given p tasks) = none :=
      if_pos hshut.abort
    refine ⟨h.system.setCall t .outside, ?_,
      refuses_setCall (fun _ _ => rfl) (fun _ => rfl) (.inl ⟨rfl, ?_⟩)⟩
    · simp only [ThreadPools.enqueueForeignStep, hfree, if_true, hrefuse]
    · simp only [ThreadPools.throws, hcall]
      exact hshut.abort
  | enqueueLocal p tasks =>
    rw [hcall] at hc
    obtain ⟨hown, hthis⟩ := hc
    obtain ⟨this, hthis⟩ := Option.isSome_iff_exists.1 hthis
    have hatomic : (h.system.worker this.1 this.2).atomicAbort = true := by
      unfold ThreadPools.ownAborted at hown
      rw [hthis] at hown
      exact hown
    have hrefuse : (h.system.worker this.1 this.2).enqueueLocal (ThreadPools.given p tasks) =
        none := by
      simp [Worker.enqueueLocal, hatomic]
    refine ⟨h.system.setCall t .outside, ?_,
      refuses_setCall (fun _ _ => rfl) (fun _ => rfl) (.inl ⟨rfl, ?_⟩)⟩
    · simp only [ThreadPools.enqueueLocalStep, hthis, Option.map_some, hrefuse]
    · simp only [ThreadPools.throws, hcall, hthis]
      exact hatomic

/-! ### Along a run -/

variable {m : PoolMove P τ}

theorem step_eq_some (hs : h.step m = some u) :
    ∃ v, h.system.step m = some v ∧ u = h.record m v := by
  obtain ⟨v, hv, rfl⟩ := Option.map_eq_some_iff.1 hs
  exact ⟨v, hv, rfl⟩

theorem reachable_system {cond : PoolHistory P τ → PoolMove P τ → Prop}
    (hr : Reach step IsInitial cond h) : ThreadPools.Reachable h.system := by
  induction hr with
  | start hs =>
    obtain ⟨size, rfl⟩ := hs
    exact .start ⟨size, rfl⟩
  | next _ _ hs ih =>
    obtain ⟨v, hv, rfl⟩ := step_eq_some hs
    exact ih.next trivial hv

omit [DecidableEq P] in
/-- A new call of `enqueue` on a pool that has been shut down. -/
theorem lateCall_enqueue {task : Option τ} (hshut : h.shutDown p = true)
    (hentered : h.Admitted (.enqueue t p task)) : h.LateCall t (h.system.enqueue t p task) := by
  have hroute := hentered hshut
  unfold ThreadPools.enqueue
  cases hthis : t.thisWorker with
  | none =>
    rw [hthis] at hroute
    exact ⟨hshut, hroute⟩
  | some =>
    rw [hthis, Option.any_some] at hroute
    dsimp only
    split_ifs at hroute ⊢
    · exact ⟨hroute, by rw [hthis]; rfl⟩
    · exact ⟨hshut, hroute⟩

omit [DecidableEq P] in
theorem lateCall_enqueueSpan {tasks : List (Option τ)} {c : Call P τ} (hshut : h.shutDown p = true)
    (hentered : h.Admitted (.enqueueSpan t p tasks))
    (hc : h.system.enqueueSpan t p tasks = some c) : h.LateCall t c := by
  have hroute := hentered hshut
  unfold ThreadPools.enqueueSpan at hc
  cases hthis : t.thisWorker with
  | some =>
    rw [hthis] at hc hroute
    cases hc
    exact ⟨hroute, by rw [hthis]; rfl⟩
  | none =>
    rw [hthis] at hc hroute
    obtain ⟨hpos, hne⟩ := hroute
    dsimp only at hc
    split_ifs at hc
    · cases hc
      cases tasks with
      | nil => exact absurd rfl hne
      | cons => exact ⟨hshut, hpos⟩
    · cases hc
      unfold ThreadPools.enqueueRanges
      rw [if_pos hpos]
      exact ⟨hshut, hpos⟩

omit [DecidableEq P] in
theorem outcome_of_lateCall {s v : ThreadPools P τ} (hc : h.LateCall t (v.calls t)) :
    s.outcome v t = .pending := by
  unfold ThreadPools.outcome
  cases hcall : v.calls t with
  | outside =>
    rw [hcall] at hc
    exact hc.elim
  | _ => rfl

theorem Ok.shut_of_returns (hok : h.Ok) (hr : ThreadPools.Reachable h.system)
    (hentered : h.Admitted m) (hreturns : h.system.shutdownReturns p m = true) :
    (h.system.pools p).abort = true ∧
    ∀ i < (h.system.pools p).size, (h.system.worker p i).Shut := by
  cases m with
  | worker | timeout | throw | enqueue | enqueueSpan | joinThrows => cases hreturns
  | shutdown _ q =>
    obtain ⟨rfl, habort⟩ : q = p ∧ (h.system.pools p).abort = true := by
      simpa [ThreadPools.shutdownReturns] using hreturns
    exact ⟨habort, hok.shut q (hentered habort)⟩
  | call t =>
    unfold ThreadPools.shutdownReturns at hreturns
    cases hcall : h.system.calls t with
    | outside | find | nextWorker | enqueueLocal | enqueueForeign | enqueued =>
      simp [hcall] at hreturns
    | shutdown q i pc =>
      obtain ⟨rfl, hi⟩ : q = p ∧ (h.system.pools p).size ≤ i := by simpa [hcall] using hreturns
      refine ⟨ThreadPools.abort_of_reachable hr hcall, fun j hj => ?_⟩
      exact (ThreadPools.shutdownOk_of_reachable hr t q i pc hcall).2 j (hj.trans_le hi)

theorem Ok.step (hok : h.Ok) (hr : ThreadPools.Reachable h.system) (hentered : h.Admitted m)
    (hs : h.step m = some u) : u.Ok := by
  obtain ⟨v, hv, rfl⟩ := step_eq_some hs
  have hsettles := ThreadPools.step_settles (ThreadPools.shutdownOk_of_reachable hr) hv
  have hsize := ThreadPools.step_size hr hv
  have hold : ∀ p, (h.record m v).shutDown p = true → (h.system.pools p).abort = true ∧
      ∀ i < (h.system.pools p).size, (h.system.worker p i).Shut := by
    intro p hp
    rcases Bool.or_eq_true_iff.1 hp with hp | hp
    · exact ⟨hok.aborted p hp, hok.shut p hp⟩
    · exact hok.shut_of_returns hr hentered hp
  have hstill : ∀ {t c}, h.LateCall t c → (h.record m v).LateCall t c := fun hc =>
    hc.mono (fun p hp => Bool.or_eq_true_iff.2 (.inl hp)) hsize
      (ownAborted_mono fun q j => (hsettles q j).atomicAbort)
  refine ⟨fun p hp => ThreadPools.step_abort hv (hold p hp).1, fun p hp i hi => ?_,
    fun t hlate => ?_⟩
  · exact (hsettles p i).shut ((hold p hp).2 i ((hsize p).symm ▸ hi))
  by_cases hcaller : m.caller = some t
  case neg =>
    -- the step of another thread
    have hsame : (h.record m v).outcome t = h.outcome t := if_neg hcaller
    have hlate' : h.late t = true := by
      change h.lateAfter m t = true at hlate
      cases m with
      | worker | timeout | throw | call | joinThrows => exact hlate
      | enqueue t' | enqueueSpan t' | shutdown t' =>
        have hne : t ≠ t' := fun heq => hcaller (congrArg some heq.symm)
        exact (Function.update_of_ne hne _ _).symm.trans hlate
    change v.calls t = _ ∧ _ ∨ (h.record m v).LateCall t (v.calls t) ∧ _
    rw [ThreadPools.step_other hv hcaller, hsame]
    exact (hok.calls t hlate').imp_right (And.imp_left hstill)
  have houtcome : (h.record m v).outcome t = h.system.outcome v t := if_pos hcaller
  rw [houtcome]
  change v.calls t = _ ∧ _ ∨ (h.record m v).LateCall t (v.calls t) ∧ _
  cases ThreadPools.step_cases hv with
  | worker | timeout | throw => cases hcaller
  | shutdown =>
    cases hcaller
    exact absurd hlate (by simp [record, lateAfter])
  | @enqueue _ q task =>
    cases hcaller
    have hshut : h.shutDown q = true := by simpa [record, lateAfter] using hlate
    have hc := lateCall_enqueue hshut hentered
    rw [← ThreadPools.setCall_self (s := h.system) (t := t) (c := h.system.enqueue t q task)] at hc
    exact .inr ⟨hstill hc, outcome_of_lateCall hc⟩
  | @enqueueSpan _ q _ c _ hcall =>
    cases hcaller
    have hshut : h.shutDown q = true := by simpa [record, lateAfter] using hlate
    have hc := lateCall_enqueueSpan hshut hentered hcall
    rw [← ThreadPools.setCall_self (s := h.system) (t := t) (c := c)] at hc
    exact .inr ⟨hstill hc, outcome_of_lateCall hc⟩
  | call =>
    cases hcaller
    have hlate' : h.late t = true := hlate
    rcases hok.calls t hlate' with ⟨hout, -⟩ | ⟨hc, -⟩
    · simp [ThreadPools.step, ThreadPools.callStep, hout] at hv
    · obtain ⟨v', hv', hrefuses⟩ :=
        hc.refuses hok (ThreadPools.inRange_of_reachable hr) (hentered hlate')
      obtain rfl : v' = v := Option.some.inj (hv'.symm.trans hv)
      rcases hrefuses.outcome with ⟨hout, hthrows⟩ | ⟨hnext, -⟩
      · exact .inl ⟨hout, by simp [ThreadPools.outcome, hout, hthrows]⟩
      · exact .inr ⟨hstill hnext, outcome_of_lateCall hnext⟩
  | joinThrows hcall =>
    cases hcaller
    rcases hok.calls t hlate with ⟨hout, -⟩ | ⟨hc, -⟩
    · cases hcall.symm.trans hout
    · rw [hcall] at hc
      exact hc.elim

theorem ok_of_reach (hr : Reach step IsInitial Admitted h) : h.Ok := by
  induction hr with
  | start hs =>
    obtain ⟨size, rfl⟩ := hs
    refine ⟨fun p hp => ?_, fun p hp => ?_, fun t ht => ?_⟩
    · cases hp
    · cases hp
    · cases ht
  | next hreach hentered hs ih => exact ih.step (reachable_system hreach) hentered hs

/-! ### The contract -/

/-- A pool on which `shutdown` has returned accepts nothing.  A late call never returns; its thread
can always go on, and throws within `stepsLeft` of its own steps, a number that no step of another
thread changes.  No step of the call touches a queue, of this pool or of any other.  A further
`shutdown` returns at once and changes nothing. -/
structure AcceptsNothing (h : PoolHistory P τ) : Prop where
  never_returns : ∀ t, h.late t = true → h.outcome t ≠ .returned
  throws : ∀ t, h.late t = true → h.outcome t = .pending → h.Admitted (.call t) →
    ∃ u, h.step (.call t) = some u ∧
      (u.outcome t = .threw ∨ u.outcome t = .pending ∧ u.stepsLeft t < h.stepsLeft t)
  undisturbed : ∀ t m u, h.step m = some u → m.caller ≠ some t → u.stepsLeft t = h.stepsLeft t
  queues : ∀ m u, h.LateMove m → h.Admitted m → h.step m = some u →
    ∀ q i, (u.system.worker q i).privateQueue = (h.system.worker q i).privateQueue ∧
      (u.system.worker q i).publicQueue = (h.system.worker q i).publicQueue
  shutdown : ∀ t p u, h.shutDown p = true → h.step (.shutdown t p) = some u →
    u.system = h.system ∧ u.outcome t = .returned

/-- The step of a late call that is on its way. -/
theorem Ok.refuses (hok : h.Ok) (hr : ThreadPools.Reachable h.system) (hlate : h.late t = true)
    (hcall : h.system.calls t ≠ .outside) (hentered : h.Admitted (.call t)) :
    ∃ v, h.system.step (.call t) = some v ∧ h.Refuses t v := by
  rcases hok.calls t hlate with ⟨hout, -⟩ | ⟨hc, -⟩
  · exact absurd hout hcall
  · exact hc.refuses hok (ThreadPools.inRange_of_reachable hr) (hentered hlate)

theorem Ok.workers_eq {v : ThreadPools P τ} (hok : h.Ok)
    (hr : ThreadPools.Reachable h.system) (hlate : h.LateMove m) (hentered : h.Admitted m)
    (hv : h.system.step m = some v) (q : P) (i : ℕ) : v.worker q i = h.system.worker q i := by
  cases ThreadPools.step_cases hv with
  | worker | timeout | throw | shutdown | joinThrows => exact hlate.elim
  | enqueue | enqueueSpan => rfl
  | @call t =>
    have hcall : h.system.calls t ≠ .outside := by
      intro hout
      simp [ThreadPools.step, ThreadPools.callStep, hout] at hv
    obtain ⟨v', hv', hrefuses⟩ := hok.refuses hr hlate hcall hentered
    obtain rfl : v' = v := Option.some.inj (hv'.symm.trans hv)
    exact hrefuses.workers q i

/-- A further call of `shutdown` finds `m_abort` set. -/
theorem shutdown_again {v : ThreadPools P τ} (habort : (h.system.pools p).abort = true)
    (hv : h.system.step (.shutdown t p) = some v) : v = h.system ∧ v.calls t = .outside := by
  simp only [ThreadPools.step, habort, if_true] at hv
  split at hv
  case isFalse => cases hv
  case isTrue hmay =>
    have hout := ThreadPools.calls_of_mayCall hmay
    cases hv
    refine ⟨?_, ThreadPools.setCall_self⟩
    have hpool : ({ h.system.pools p with abort := true } : ThreadPool (P × τ)) =
        h.system.pools p := by
      rw [← habort]
    rw [hpool, ← hout]
    simp only [ThreadPools.setPool, ThreadPools.setCall, Function.update_eq_self]

/-- **A pool that has been shut down accepts nothing from the calls that its workers can refuse.**
The condition bears on late calls only: a thread of a running worker of another pool is not led to
its own worker; where a call is led to the pool, this has workers, and a span has tasks; and
`shutdown` is not called again before it has returned. -/
theorem accepts_nothing (h : PoolHistory P τ) (hr : Reach step IsInitial Admitted h) :
    h.AcceptsNothing := by
  have hok := ok_of_reach hr
  have hsystem := reachable_system hr
  constructor
  case never_returns =>
    intro t hlate hreturned
    rcases hok.calls t hlate with ⟨-, hthrew⟩ | ⟨-, hpending⟩
    · rw [hthrew] at hreturned
      cases hreturned
    · rw [hpending] at hreturned
      cases hreturned
  case throws =>
    intro t hlate hpending hentered
    have hcall : h.system.calls t ≠ .outside := by
      intro hout
      rcases hok.calls t hlate with ⟨-, hthrew⟩ | ⟨hc, -⟩
      · rw [hthrew] at hpending
        cases hpending
      · rw [hout] at hc
        exact hc
    obtain ⟨v, hv, hrefuses⟩ := hok.refuses hsystem hlate hcall hentered
    refine ⟨h.record (.call t) v, Option.map_eq_some_iff.2 ⟨v, hv, rfl⟩, ?_⟩
    have houtcome : (h.record (.call t) v).outcome t = h.system.outcome v t := if_pos rfl
    rw [houtcome]
    rcases hrefuses.outcome with ⟨hout, hthrows⟩ | ⟨hnext, hless⟩
    · exact Or.inl (by simp [ThreadPools.outcome, hout, hthrows])
    · refine Or.inr ⟨outcome_of_lateCall hnext, ?_⟩
      have hsizes : (fun p => (v.pools p).size) = fun p => (h.system.pools p).size :=
        funext hrefuses.sizes
      change callStepsLeft (fun p => (v.pools p).size) (v.calls t) < _
      rw [hsizes]
      exact hless
  case undisturbed =>
    intro t m u hs hcaller
    obtain ⟨v, hv, rfl⟩ := step_eq_some hs
    have hsizes : (fun p => (v.pools p).size) = fun p => (h.system.pools p).size :=
      funext (ThreadPools.step_size hsystem hv)
    change callStepsLeft (fun p => (v.pools p).size) (v.calls t) = _
    rw [hsizes, ThreadPools.step_other hv hcaller]
    rfl
  case queues =>
    intro m u hlate hentered hs q i
    obtain ⟨v, hv, rfl⟩ := step_eq_some hs
    have hworker : (h.record m v).system.worker q i = h.system.worker q i :=
      hok.workers_eq hsystem hlate hentered hv q i
    exact ⟨by rw [hworker], by rw [hworker]⟩
  case shutdown =>
    intro t p u hshut hs
    obtain ⟨v, hv, rfl⟩ := step_eq_some hs
    obtain ⟨heq, hout⟩ := shutdown_again (hok.aborted p hshut) hv
    have houtcome : (h.record (.shutdown t p) v).outcome t = h.system.outcome v t := if_pos rfl
    refine ⟨heq, houtcome.trans ?_⟩
    have hthrows : h.system.throws t = false := by
      rw [heq] at hout
      simp [ThreadPools.throws, hout]
    simp [ThreadPools.outcome, hout, hthrows]

open RuntimePool

/-- A foreign thread shuts the thread pool down; another one then enqueues a task and a span of two,
and a thread of the background executor, with a task left in its own queue, finds an idle worker. -/
theorem accepts_nothing_of_refused :
    ∃ h : PoolHistory RuntimePool ℕ, Reach step IsInitial Admitted h ∧
      h.shutDown threadPoolExecutor = true ∧
      h.late (.foreign 1 0) = true ∧ h.outcome (.foreign 1 0) = .threw ∧
      h.late (.foreign 2 0) = true ∧ h.outcome (.foreign 2 0) = .threw ∧
      h.late (.worker backgroundExecutor 0) = true ∧
      h.outcome (.worker backgroundExecutor 0) = .threw ∧ h.AcceptsNothing := by
  let f : Thread RuntimePool := .foreign 0 0
  let g : Thread RuntimePool := .foreign 1 0
  let g' : Thread RuntimePool := .foreign 2 0
  let w : Thread RuntimePool := .worker backgroundExecutor 0
  let size : RuntimePool → ℕ := fun p => if p = threadPoolExecutor then 2 else 1
  let schedule : List (PoolMove RuntimePool ℕ) :=
    List.flatten
      [[.enqueueSpan f backgroundExecutor [some 0, some 1], .call f, .call f],
        List.replicate 4 (.worker backgroundExecutor 0),
        [.shutdown f threadPoolExecutor], List.replicate 13 (.call f),
        [.enqueue g threadPoolExecutor (some 2)], List.replicate 7 (.call g),
        [.enqueueSpan g' threadPoolExecutor [some 3, some 4], .call g'],
        [.enqueue w threadPoolExecutor (some 5)], List.replicate 8 (.call w)]
  have h : Reach step IsInitial Admitted _ := .lastState ⟨size, rfl⟩ schedule
  refine ⟨_, h, ?_, ?_, ?_, ?_, ?_, ?_, ?_, accepts_nothing _ h⟩ <;> decide +kernel

/-- **Calls that a pool does not refuse after `shutdown` has returned.**  A span without tasks
returns.  A thread of the background executor, whose worker has no other task, returns from
`enqueue` on the thread pool, and its own worker has the task.  Where a second call of `shutdown`
has returned while the first is still at work, the pool itself stores a task. -/
theorem accepts_after_shutdown :
    (∃ h : PoolHistory RuntimePool ℕ, Interleaving.Reachable step IsInitial h ∧
      h.shutDown threadPoolExecutor = true ∧
      h.late (.foreign 1 0) = true ∧ h.outcome (.foreign 1 0) = .returned ∧
      h.late (.worker backgroundExecutor 0) = true ∧
      h.outcome (.worker backgroundExecutor 0) = .returned ∧
      (h.system.worker backgroundExecutor 0).privateQueue = [some (threadPoolExecutor, 5)]) ∧
    ∃ h : PoolHistory RuntimePool ℕ, Interleaving.Reachable step IsInitial h ∧
      h.shutDown threadPoolExecutor = true ∧
      h.late (.foreign 1 0) = true ∧ h.outcome (.foreign 1 0) = .returned ∧
      (h.system.worker threadPoolExecutor 0).publicQueue = [some (threadPoolExecutor, 5)] := by
  let f : Thread RuntimePool := .foreign 0 0
  let g : Thread RuntimePool := .foreign 1 0
  let w : Thread RuntimePool := .worker backgroundExecutor 0
  constructor
  · let schedule : List (PoolMove RuntimePool ℕ) :=
      List.flatten
        [[.enqueue f backgroundExecutor (some 0)], List.replicate 8 (.call f),
          List.replicate 4 (.worker backgroundExecutor 0),
          [.shutdown f threadPoolExecutor], List.replicate 7 (.call f),
          [.enqueueSpan g threadPoolExecutor []],
          [.enqueue w threadPoolExecutor (some 5), .call w]]
    exact ⟨_, .lastState ⟨fun _ => 1, rfl⟩ schedule, by decide +kernel⟩
  · let schedule : List (PoolMove RuntimePool ℕ) :=
      List.flatten
        [[.shutdown f threadPoolExecutor, .shutdown g threadPoolExecutor],
          [.enqueue g threadPoolExecutor (some 5)], List.replicate 8 (.call g)]
    exact ⟨_, .lastState ⟨fun _ => 1, rfl⟩ schedule, by decide +kernel⟩

end PoolHistory
end Concurrencpp
