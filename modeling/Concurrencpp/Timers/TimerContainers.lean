import Concurrencpp.Timers.TimerRequests
import Concurrencpp.Timers.TimerNodes

/-!
# The two containers of the worker

`m_iterator_mapper` names the element of every timer of `m_timers`, and `m_timers` is ordered by
deadlines.

* `ContainersOk`: the containers agree but for the timer that `process_timers` has in hand
  (`WorkLoopPc.hand`), and are in order.
* `PassOk`: a timer is fired when it is due at the time of the pass, and at the end of a pass no
  timer is due.
-/

namespace Concurrencpp

/-! ### The containers of the worker -/

/-- The element that is in the map but not in the multiset. -/
def WorkLoopPc.hand (q : TimerQueueInternal) : WorkLoopPc → List (ℕ × ℕ)
  | .extracted _ node x | .post _ node x _ | .fired _ node x _ => [(node, x)]
  | .unmap x _ => (q.find x).toList.map fun node => (node, x)
  | _ => []

/-- The time of the pass. -/
def WorkLoopPc.time : WorkLoopPc → Option ℕ
  | .pass now | .notExpired now _ | .extracted now _ _ | .post now _ _ _ | .fired now _ _ _
  | .unmapped now _ | .dying now _ | .reinserted now _ | .finish now => some now
  | _ => none

/-- The pass has seen that no timer is due any more. -/
def WorkLoopPc.ends : WorkLoopPc → Option ℕ
  | .notExpired now _ | .finish now => some now
  | _ => none

structure ContainersOk (deadline : ℕ → ℕ) (pc : WorkLoopPc) (q : TimerQueueInternal) : Prop where
  agrees : pc ≠ .aborted → q.Agrees (pc.hand q)
  sorted : TimerQueueInternal.InOrder deadline q.timers
  mapped : ∀ x rs, pc = .erase x rs ∨ pc = .unmap x rs → ∃ node, q.find x = some node
  removed : ∀ x rs, pc = .removed x rs → q.find x = none

structure PassOk (deadline : ℕ → ℕ) (now : ℕ) (pc : WorkLoopPc) (q : TimerQueueInternal) :
    Prop where
  time : ∀ n ∈ pc.time, n ≤ now
  due : ∀ n node x, pc = .extracted n node x → deadline x ≤ n
  late : ∀ n ∈ pc.ends, ∀ e ∈ q.timers, n < deadline e.2

section Worker

variable {pc pc' : WorkLoopPc} {q q' : TimerQueueInternal} {deadline deadline' : ℕ → ℕ}
  {now now' : ℕ}

theorem hand_of_waits (h : pc.waits = true) : pc.hand q = [] := by
  cases pc <;> first | rfl | cases h

/-- The worker does not remove a timer at the moment. -/
theorem ContainersOk.of_agrees (ha : q.Agrees (pc.hand q))
    (hs : TimerQueueInternal.InOrder deadline q.timers)
    (hr : pc.requests = [] ∨ ∃ rs, pc = .process rs) : ContainersOk deadline pc q := by
  refine ⟨fun _ => ha, hs, ?_, ?_⟩
  · rintro x rs (rfl | rfl) <;> simp [WorkLoopPc.requests] at hr
  · rintro x rs rfl
    simp [WorkLoopPc.requests] at hr

theorem ContainersOk.congr (h : ContainersOk deadline pc q)
    (heq : ∀ e ∈ q.timers, deadline' e.2 = deadline e.2) : ContainersOk deadline' pc q :=
  { h with sorted := h.sorted.congr heq }

theorem PassOk.congr (h : PassOk deadline now pc q) (hnow : now ≤ now')
    (heq : ∀ e ∈ q.timers, deadline' e.2 = deadline e.2)
    (hdue : ∀ n node x, pc = .extracted n node x → deadline' x = deadline x) :
    PassOk deadline' now' pc q where
  time n hn := (h.time n hn).trans hnow
  due n node x hpc := (hdue n node x hpc).trans_le (h.due n node x hpc)
  late n hn e he := (h.late n hn e he).trans_eq (heq e he).symm

/-- The worker is not in a pass. -/
theorem passOk_of_time (ht : pc.time = none) : PassOk deadline now pc q where
  time n hn := by
    rw [ht] at hn
    cases hn
  due n node x hpc := by
    rw [hpc] at ht
    cases ht
  late n hn := by
    cases pc with
    | notExpired | finish => cases ht
    | _ => cases hn

theorem time_of_waits (h : pc.waits = true) : pc.time = none := by
  cases pc <;> first | rfl | cases h

end Worker

namespace TimerMachine

variable {v v' : TimerMachine} {pc pc' : WorkLoopPc} {q q' : TimerQueueInternal} {x : ℕ}

/-- A step of `process_timers`. -/
theorem WorkStep.containers (hw : WorkStep v pc q pc' q') (h : ContainersOk v.deadlines pc q)
    (hnew : ∀ x rs, pc = .process ((x, .add) :: rs) → x ∉ q.timers.map Prod.snd) :
    ContainersOk v.deadlines pc' q' := by
  cases hw with
  | add x rs =>
    exact .of_agrees ((h.agrees (by simp)).add (hnew x rs rfl)) h.sorted.insert (.inr ⟨rs, rfl⟩)
  | found _ hfind =>
    refine ⟨fun _ => h.agrees (by simp), h.sorted, ?_, by simp⟩
    rintro y rs' (heq | heq)
    · cases heq
      exact ⟨_, hfind⟩
    · cases heq
  | missing _ hfind =>
    refine ⟨fun _ => h.agrees (by simp), h.sorted, by simp, ?_⟩
    rintro y rs' heq
    cases heq
    exact hfind
  | erase x rs q =>
    obtain ⟨node, hfind⟩ := h.mapped x rs (.inl rfl)
    have hfind' : (q.eraseNode node).find x = some node := hfind
    rw [hfind]
    refine ⟨fun _ => ?_, ?_, ?_, by simp⟩
    · change (q.eraseNode node).Agrees
        (((q.eraseNode node).find x).toList.map fun node => (node, x))
      rw [hfind']
      exact (h.agrees (by simp)).eraseNode hfind
    · exact h.sorted.sublist List.filter_sublist
    · rintro y rs' (heq | heq)
      · cases heq
      · cases heq
        exact ⟨node, hfind'⟩
  | unmap x rs =>
    obtain ⟨node, hfind⟩ := h.mapped x rs (.inr rfl)
    have ha := h.agrees (by simp)
    rw [WorkLoopPc.hand, hfind] at ha
    refine ⟨fun _ => ha.unmap, h.sorted, by simp, ?_⟩
    rintro y rs' heq
    cases heq
    rw [TimerQueueInternal.find_eq_none]
    intro hmem
    obtain ⟨e, he, heq⟩ := List.mem_map.1 hmem
    exact of_decide_eq_true (List.mem_filter.1 he).2 heq
  | extract hq =>
    refine .of_agrees ((h.agrees (by simp)).extract hq) ?_ (.inl rfl)
    exact h.sorted.sublist (List.tail_sublist _)
  | unmapFired => exact .of_agrees (h.agrees (by simp)).unmap h.sorted (.inl rfl)
  | reinsert =>
    exact .of_agrees (h.agrees (by simp)).reinsert h.sorted.insert (.inl rfl)
  | abandon hsub => exact ⟨fun hne => (hne rfl).elim, h.sorted.sublist hsub, by simp, by simp⟩
  | removed _ rs => exact .of_agrees (h.agrees (by simp)) h.sorted (.inr ⟨rs, rfl⟩)
  | _ => exact .of_agrees (h.agrees (by simp)) h.sorted (.inl rfl)

theorem WorkStep.pass (hw : WorkStep v pc q pc' q') (hc : ContainersOk v.deadlines pc q)
    (h : PassOk v.deadlines v.now pc q) : PassOk v.deadlines v.now pc' q' := by
  cases hw with
  | noTimers _ hq => exact ⟨h.time, by simp, by simp [hq]⟩
  | extract _ hdue =>
    refine ⟨h.time, ?_, by simp [WorkLoopPc.ends]⟩
    rintro n node x heq
    cases heq
    exact hdue
  | notDue hq hlate =>
    -- the first timer is not due, and the others are not before it
    refine ⟨h.time, by simp, ?_⟩
    rintro n hn e he
    cases hn
    have hsorted := hc.sorted
    rw [hq] at hsorted he
    rcases List.mem_cons.1 he with rfl | he
    · exact hlate
    · exact hlate.trans_le ((List.pairwise_cons.1 hsorted).1 e he)
  | notExpired => exact ⟨h.time, by simp, h.late⟩
  | skip | posted | unmapFired | reinsert | unmapped | dying | reinserted =>
    exact ⟨h.time, by simp, by simp [WorkLoopPc.ends]⟩
  | _ => exact ⟨by simp [WorkLoopPc.time], by simp, by simp [WorkLoopPc.ends]⟩

theorem Step.now_le (hs : Step v v') : v.now ≤ v'.now := by
  cases hs with
  | tick => exact Nat.le_succ _
  | _ => exact le_rfl

/-- The worker in a state that its steps keep. -/
structure WorkerOk (v : TimerMachine) (pc : WorkLoopPc) (q : TimerQueueInternal) : Prop where
  containers : ContainersOk v.deadlines pc q
  pass : PassOk v.deadlines v.now pc q

/-- What is known of the timers that the worker has. -/
structure TimersOk (v : TimerMachine) (pc : WorkLoopPc) (q : TimerQueueInternal) : Prop where
  old : ∀ e ∈ q.timers, e.2 ≠ v.created
  extracted : ∀ n node x, pc = .extracted n node x → x ≠ v.created
  new : ∀ x rs, pc = .process ((x, .add) :: rs) → x ∉ q.timers.map Prod.snd

theorem LoopStep.workerOk (hstep : LoopStep v v' pc q pc' q') (hnow : v.now ≤ v'.now)
    (h : v.WorkerOk pc q) (ht : v.TimersOk pc q) : v'.WorkerOk pc' q' := by
  have hcalm : Calm v v' → ∀ e ∈ q.timers, v'.deadlines e.2 = v.deadlines e.2 := fun hc e he =>
    hc.deadlines e.2 (ht.old e he)
  cases hstep with
  | wait hpc hpc' hc =>
    have ha := h.containers.agrees (by rintro rfl; cases hpc)
    rw [hand_of_waits hpc] at ha
    refine ⟨.of_agrees ?_ (h.containers.sorted.congr (hcalm hc)) (.inl (requests_of_waits hpc')),
      passOk_of_time (time_of_waits hpc')⟩
    rwa [hand_of_waits hpc']
  | abort hc =>
    exact ⟨⟨fun hne => (hne rfl).elim, h.containers.sorted.congr (hcalm hc), by simp, by simp⟩,
      passOk_of_time rfl⟩
  | take _ hc =>
    exact ⟨.of_agrees (h.containers.agrees (by simp)) (h.containers.sorted.congr (hcalm hc))
      (.inr ⟨_, rfl⟩), passOk_of_time rfl⟩
  | work hw _ hsched =>
    have hdead : v'.deadlines = v.deadlines := by
      funext x
      exact congrArg Schedule.deadline (congrFun hsched x)
    have hcont := hw.containers h.containers ht.new
    have hpass := hw.pass h.containers h.pass
    refine ⟨hdead ▸ hcont, hpass.congr hnow (fun e _ => ?_) fun n node x _ => ?_⟩
    · rw [hdead]
    · rw [hdead]
  | @fire _ _ x q _ hsched =>
    have hnot : x ∉ q.timers.map Prod.snd := (h.containers.agrees (by simp)).not_mem_timers
    -- the timer that gets a new deadline is not in the multiset
    have hdead : ∀ e ∈ q.timers, v'.deadlines e.2 = v.deadlines e.2 := by
      intro e he
      have hne : e.2 ≠ x := fun heq => hnot (heq ▸ List.mem_map_of_mem he)
      unfold deadlines
      rw [hsched, Function.update_of_ne hne]
    exact ⟨.of_agrees (h.containers.agrees (by simp)) (h.containers.sorted.congr hdead) (.inl rfl),
      fun n hn => (h.pass.time n hn).trans hnow, by simp, by simp [WorkLoopPc.ends]⟩

theorem Step.workerOk (hs : Step v v') (hsingle : v.SingleLoop)
    (h : ∀ pc q, v.Loop pc q → v.WorkerOk pc q) (ht : ∀ pc q, v.Loop pc q → v.TimersOk pc q)
    (hl : v'.Loop pc q) : v'.WorkerOk pc q := by
  cases hs.loop hsingle hl with
  | same hl hc =>
    have hdead : ∀ e ∈ q.timers, v'.deadlines e.2 = v.deadlines e.2 := fun e he =>
      hc.deadlines e.2 ((ht pc q hl).old e he)
    refine ⟨(h pc q hl).containers.congr hdead, (h pc q hl).pass.congr hs.now_le hdead ?_⟩
    intro n node x hpc
    exact hc.deadlines x ((ht pc q hl).extracted n node x hpc)
  | start hpc hq =>
    subst hpc hq
    exact ⟨.of_agrees TimerQueueInternal.agrees_init .nil (.inl rfl), passOk_of_time rfl⟩
  | step hl hstep => exact hstep.workerOk hs.now_le (h _ _ hl) (ht _ _ hl)

end TimerMachine

namespace TimerSystem

open TimerMachine

variable {s : TimerSystem} {pc : WorkLoopPc} {q : TimerQueueInternal}

/-- The tickets of the worker. -/
theorem mem_stack_of_loop {t : TimerThread} {d : ℕ} {n : Ticket} {fs : List Frame}
    (hmem : .workLoop pc q d ∈ fs) (hn : n ∈ pc.tickets t ++ q.elements t) :
    n ∈ stackTickets t fs := by
  induction fs with
  | nil => cases hmem
  | cons _ _ ih =>
    rw [stackTickets, List.mem_append]
    rcases List.mem_cons.1 hmem with rfl | hmem
    · exact .inl hn
    · exact .inr (ih hmem)

theorem timersOk_of_reachable (h : Reachable s) (hl : s.machine.Loop pc q) :
    s.machine.TimersOk pc q := by
  have hinv := delayInv_of_reachable h
  obtain ⟨t, d, hmem⟩ := id hl
  have hold : ∀ n ∈ pc.tickets t ++ q.elements t, n.timer ≠ s.created := fun n hn =>
    ne_of_lt (hinv.ok.old (some t) n (mem_stack_of_loop hmem hn))
  constructor
  case old =>
    intro e he
    exact hold _ (List.mem_append_right _ (List.mem_map_of_mem he))
  case extracted =>
    rintro n node x rfl
    exact hold _ (List.mem_append_left _ (List.mem_singleton_self _))
  case new =>
    rintro x rs rfl hx
    refine hinv.not_toAdd (loopInv_of_reachable h).single hl hx ?_
    exact .inr (.inr ⟨_, q, hl, List.mem_cons_self⟩)

theorem workerOk_of_reachable (h : Reachable s) :
    ∀ pc q, s.machine.Loop pc q → s.machine.WorkerOk pc q := by
  induction h with
  | start hs =>
    cases hs
    rintro pc q ⟨t, d, hmem⟩
    cases hmem
  | next hr _ hs ih =>
    intro pc q hl
    exact (step_machine (delayInv_of_reachable hr) hs).workerOk (loopInv_of_reachable hr).single ih
      (fun pc q => timersOk_of_reachable hr) hl

end TimerSystem
end Concurrencpp
