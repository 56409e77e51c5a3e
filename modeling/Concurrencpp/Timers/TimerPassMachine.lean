import Concurrencpp.Timers.TimerContainers
import Concurrencpp.Timers.TimerPassOnce

/-!
# The two models of `process_timers`

`TimerSystem` has `process_timers` with its threads and references, and counts milliseconds without
a bound; `TimerPasses` has it with the arithmetic of the clock.  A step of the first is no step, one
step or two steps of the second while the next deadlines are time points.

* `PassView`: the passes are where the worker is, with the same containers and timers.
* `ProcessStep.passes` and `processTimersStep_passes`: a step keeps them so.
* `PassView.finish_returns`: both return the same time.
-/

namespace Concurrencpp

/-- Milliseconds since the epoch as a time point. -/
def timePoint (ms : ℕ) : ℤ := ms * 10 ^ 6

theorem timePoint_le {m n : ℕ} : timePoint m ≤ timePoint n ↔ m ≤ n := by
  unfold timePoint
  omega

theorem timePoint_lt {m n : ℕ} : timePoint m < timePoint n ↔ m < n := by
  unfold timePoint
  omega

/-- A sum that stays in range. -/
theorem addMilliseconds_timePoint {m n : ℕ} (h : timePoint (m + n) < 2 ^ 63) :
    addMilliseconds (timePoint m) n = timePoint (m + n) := by
  unfold timePoint at h ⊢
  rw [addMilliseconds_eq (by omega) (by omega)]
  push_cast
  ring

def Schedule.base (c : Schedule) : TimerStateBase :=
  ⟨c.frequency, timePoint c.deadline, c.cancelled, c.isOneshot⟩

/-- `fire` gives both the same deadline. -/
theorem rearm_base {c : Schedule} {now : ℕ} (h : timePoint (now + c.frequency) < 2 ^ 63) :
    c.base.rearm (timePoint now) = Schedule.base { c with deadline := now + c.frequency } := by
  have hsize : fromSize c.frequency = c.frequency := by
    unfold timePoint at h
    exact wrap_eq (by omega) (by omega)
  have hsum : addMilliseconds (timePoint now) (fromSize c.frequency) =
      timePoint (now + c.frequency) := by
    rw [hsize, addMilliseconds_timePoint h]
  exact congrArg (TimerStateBase.mk c.frequency · c.cancelled c.isOneshot) hsum

/-- `process_timers` is at `i`, but for the references that the worker still has to let go. -/
def WorkLoopPc.At (i : PassPc) : WorkLoopPc → Prop
  | .process rs | .unmap _ rs | .removed _ rs => i = .requests rs
  | .erase x rs => i = .requests ((x, .remove) :: rs)
  | .pass now | .unmapped now _ | .dying now _ | .reinserted now _ => i = .loop (timePoint now)
  | .extracted now node x => i = .extracted (timePoint now) node x
  | .post now node x _ => i = .fired (timePoint now) node x false
  | .fired now node x cancelled => i = .fired (timePoint now) node x cancelled
  | .notExpired now _ | .finish now => i = .finish (timePoint now)
  | .lock => ∃ last, i = .returned last
  | .locked | .waiting | .timedOut | .woken | .aborted => False

/-- The containers when the references are gone. -/
def WorkLoopPc.containers (q : TimerQueueInternal) : WorkLoopPc → TimerQueueInternal
  | .unmap x _ => q.unmap x
  | _ => q

/-- The passes are where the worker is. -/
structure PassView (v : TimerMachine) (pc : WorkLoopPc) (q : TimerQueueInternal) (p : TimerPasses) :
    Prop where
  timers : p.timers = fun x => (v.schedule x).base
  queue : p.queue = pc.containers q
  pc : pc.At p.pc

/-- The worker goes from `p` to `p'` at the time `reading`. -/
abbrev Works (reading : ℤ) : TimerPasses → TimerPasses → Prop :=
  Relation.ReflTransGen fun p p' => p.work reading = some p'

variable {v v' : TimerMachine} {pc pc' : WorkLoopPc} {q q' : TimerQueueInternal} {p : TimerPasses}
  {now : ℕ}

theorem PassView.deadlines (h : PassView v pc q p) (x : ℕ) :
    p.deadlines x = timePoint (v.deadlines x) := by
  unfold TimerPasses.deadlines
  rw [h.timers]
  rfl

/-- The multiset compares deadlines only. -/
theorem PassView.insert (h : PassView v pc q p) (node : ℕ × ℕ) (ts : List (ℕ × ℕ)) :
    TimerQueueInternal.insert p.deadlines node ts =
    TimerQueueInternal.insert v.deadlines node ts := by
  induction ts with
  | nil => rfl
  | cons e ts ih =>
    simp only [TimerQueueInternal.insert, List.orderedInsert, h.deadlines, timePoint_lt] at ih ⊢

namespace TimerMachine

/-- A step that leaves the timers as they are. -/
theorem WorkStep.passes (hw : WorkStep v pc q pc' q') (h : PassView v pc q p)
    (hc : ContainersOk v.deadlines pc q) :
    ∃ p', Works (timePoint v.now) p p' ∧ PassView v pc' q' p' := by
  have hinsert := h.insert
  obtain ⟨timers, created, queue, i, added, fired, clock, failed⟩ := p
  obtain ⟨rfl, hqueue, hpc⟩ := h
  cases hw with
  | found | unmap | removed | notExpired | posted | unmapped | dying | reinserted =>
    exact ⟨_, .refl, rfl, hqueue, hpc⟩
  | abandon => exact hpc.elim
  | begin =>
    cases hpc
    cases hqueue
    exact ⟨_, .single rfl, rfl, rfl, rfl⟩
  | add x rs =>
    cases hpc
    cases hqueue
    exact ⟨_, .single rfl, rfl, congrArg (TimerQueueInternal.mk · _ _) (hinsert _ _), rfl⟩
  | missing rs hfind =>
    cases hpc
    cases hqueue
    refine ⟨_, .single rfl, ?_⟩
    simp only [TimerPasses.removeTimerInternal, hfind]
    exact ⟨rfl, rfl, rfl⟩
  | erase x rs =>
    cases hpc
    cases hqueue
    obtain ⟨node, hfind⟩ := hc.mapped x rs (.inl rfl)
    refine ⟨_, .single rfl, ?_⟩
    simp only [TimerPasses.removeTimerInternal, hfind]
    exact ⟨rfl, rfl, rfl⟩
  | noTimers now hnil =>
    cases hpc
    cases hqueue
    refine ⟨_, .single rfl, ?_⟩
    simp only [TimerPasses.loop, hnil]
    exact ⟨rfl, rfl, rfl⟩
  | @extract _ _ x _ _ hq hdue =>
    cases hpc
    cases hqueue
    refine ⟨_, .single rfl, ?_⟩
    have hexpired : (v.schedule x).base.expired (timePoint _) = true :=
      decide_eq_true (timePoint_le.2 hdue)
    simp only [TimerPasses.loop, hq, hexpired, if_true]
    exact ⟨rfl, rfl, rfl⟩
  | @notDue _ _ x _ _ hq hlate =>
    cases hpc
    cases hqueue
    refine ⟨_, .single rfl, ?_⟩
    have hexpired : (v.schedule x).base.expired (timePoint _) = false :=
      decide_eq_false (not_le.2 (timePoint_lt.2 hlate))
    simp only [TimerPasses.loop, hq, hexpired]
    exact ⟨rfl, rfl, rfl⟩
  | @skip _ _ x _ hcancel =>
    cases hpc
    cases hqueue
    have hbase : (v.schedule x).base.cancelled = true := hcancel
    refine ⟨_, .single rfl, ?_⟩
    simp only [hbase, if_true]
    exact ⟨rfl, rfl, rfl⟩
  | @unmapFired _ _ x _ _ hend =>
    cases hpc
    cases hqueue
    have hbase : ((v.schedule x).base.isOneshot || _) = true := hend
    refine ⟨_, .single rfl, ?_⟩
    simp only [TimerPasses.afterFire, hbase, if_true]
    exact ⟨rfl, rfl, rfl⟩
  | @reinsert _ _ x _ _ hback =>
    cases hpc
    cases hqueue
    have hbase : ((v.schedule x).base.isOneshot || _) = false := hback
    refine ⟨_, .single rfl, ?_⟩
    simp only [TimerPasses.afterFire, hbase]
    exact ⟨rfl, congrArg (TimerQueueInternal.mk · _ _) (hinsert _ _), rfl⟩
  | finish now q =>
    cases hpc
    cases hqueue
    refine ⟨_, .single rfl, ?_⟩
    have hagrees := hc.agrees (by simp)
    simp only [TimerPasses.finish]
    split
    next hnil =>
      -- without a timer the map is empty as well
      have hsize : q.iteratorMapper.length = q.timers.length :=
        of_decide_eq_true (TimerPasses.sizesAgree_of_agrees hagrees)
      have hmap : q.iteratorMapper = [] := List.eq_nil_of_length_eq_zero (by rw [hsize, hnil]; rfl)
      refine ⟨rfl, ?_, _, rfl⟩
      change (⟨[], [], q.nodes⟩ : TimerQueueInternal) = ⟨q.timers, q.iteratorMapper, q.nodes⟩
      rw [hnil, hmap]
    · exact ⟨rfl, rfl, _, rfl⟩

/-- **A step of `process_timers` in the one model is at most two steps in the other**, as long as
the next deadline of a timer that is fired is a time point. -/
theorem ProcessStep.passes {t : TimerThread} {rest : List Frame} {deadline : ℕ}
    (hs : ProcessStep v t rest deadline pc q v') (h : PassView v pc q p)
    (hc : ContainersOk v.deadlines pc q)
    (hrange : ∀ now node x, pc = .extracted now node x →
      timePoint (v.now + (v.schedule x).frequency) < 2 ^ 63) :
    ∃ pc' q' deadline' p', .workLoop pc' q' deadline' ∈ v'.frames t ∧
      Works (timePoint v.now) p p' ∧ PassView v' pc' q' p' := by
  cases hs with
  | @work _ pc' _ q' deadline' fs hw hcovers =>
    obtain ⟨p', hworks, h'⟩ := hw.passes h hc
    refine ⟨pc', q', deadline', p', ?_, hworks, h'.timers, h'.queue, h'.pc⟩
    change _ ∈ Function.update v.frames t fs t
    rw [Function.update_self]
    cases hcovers with
    | bare => exact List.mem_cons_self
    | user | task => exact List.mem_cons_of_mem _ List.mem_cons_self
  | @fire now node x q hcancel =>
    have hpc : p.pc = .extracted (timePoint now) node x := h.pc
    have hbase : p.timers x = (v.schedule x).base := congrFun h.timers x
    have hcheck : p.work (timePoint v.now) =
        some (p.goto (.fire (timePoint now) node x) p.queue) := by
      have hlive : (p.timers x).cancelled = false := hbase ▸ hcancel
      simp only [TimerPasses.work, hpc, hlive, Bool.false_eq_true, if_false]
    refine ⟨.post now node x (v.posts x), q, deadline, _, ?_, .head hcheck (.single rfl), ?_,
      h.queue, rfl⟩
    · change _ ∈ Function.update v.frames t _ t
      rw [Function.update_self]
      exact List.mem_cons_self
    · have hnext : (p.timers x).rearm (timePoint v.now) =
          Schedule.base { v.schedule x with deadline := v.now + (v.schedule x).frequency } := by
        rw [hbase]
        exact rearm_base (hrange now node x rfl)
      change Function.update p.timers x ((p.timers x).rearm (timePoint v.now)) = _
      rw [hnext, h.timers]
      exact (Function.comp_update Schedule.base v.schedule x _).symm

end TimerMachine

namespace TimerSystem

/-- The same for a reached state of the timer queue. -/
theorem processTimersStep_passes {s s' : TimerSystem} {t : TimerThread} {rest : List Frame}
    {deadline : ℕ} (hr : Reachable s) (hf : s.frames t = .workLoop pc q deadline :: rest)
    (hs : s.processTimersStep t q deadline rest pc = some s') (h : PassView s.machine pc q p)
    (hrange : ∀ now node x, pc = .extracted now node x →
      timePoint (s.now + (s.timers x).frequency) < 2 ^ 63) :
    ∃ pc' q' deadline' p', .workLoop pc' q' deadline' ∈ s'.frames t ∧
      Works (timePoint s.now) p p' ∧ PassView s'.machine pc' q' p' := by
  have hloop : s.machine.Loop pc q := by
    refine ⟨t, deadline, ?_⟩
    rw [show s.machine.frames t = _ from hf]
    exact List.mem_cons_self
  exact (processTimersStep_machine hs).passes h
    (workerOk_of_reachable hr pc q hloop).containers hrange

end TimerSystem

/-- `process_timers` returns the same time. -/
theorem PassView.finish_returns (h : PassView v (.finish now) q p)
    (hrange : timePoint (q.nextDeadline v.deadlines now) < 2 ^ 63) :
    (p.finish (timePoint now)).pc =
      .returned (some (timePoint now, timePoint (q.nextDeadline v.deadlines now))) := by
  have hqueue : p.queue = q := h.queue
  unfold TimerPasses.finish TimerQueueInternal.nextDeadline at *
  rw [hqueue]
  cases hq : q.timers with
  | nil =>
    rw [hq] at hrange
    rw [← addMilliseconds_timePoint hrange]
    rfl
  | cons e _ =>
    exact congrArg (fun d => PassPc.returned (some (timePoint now, d))) (h.deadlines e.2)

end Concurrencpp
