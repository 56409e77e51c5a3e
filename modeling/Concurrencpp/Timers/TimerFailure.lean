import Concurrencpp.Timers.TimerContainers

/-!
# Executors that fail

`fire` is called between the extraction of a timer and its way back into the multiset, and nothing
catches an exception of `post` there: it leaves `process_timers` and `work_loop`, and the program
ends.

* `throwing_post_ends_worker`: a run in which this happens, with a timer that is left in the map
  only, and another one that is due and never posted.
* `pass_posts_every_due_timer`: as long as `post` returns, the containers agree, no exception leaves
  `work_loop`, and a pass ends when every timer that was due has been posted or is cancelled.
* `throw_ends_program`: the condition is needed, for no pass goes on behind an exception.
-/

namespace Concurrencpp

open Interleaving
open Function (update update_self update_of_ne)

/-- The executor throws in `post`. -/
def TimerMove.throws : TimerMove → Bool
  | .throw _ => true
  | _ => false

namespace TimerMachine

variable {v v' : TimerMachine} {pc pc' : WorkLoopPc} {q q' : TimerQueueInternal} {x now : ℕ}

/-- The pass at the time `now` has the timer, which is due, still before it. -/
structure Waiting (v : TimerMachine) (now x : ℕ) (pc : WorkLoopPc) (q : TimerQueueInternal) :
    Prop where
  loop : v.Loop pc q
  time : pc.time = some now
  due : v.deadlines x ≤ now
  place : x ∈ q.timers.map Prod.snd ∨ ∃ node, pc = .extracted now node x

/-- The timer is fired by this step, or it is cancelled. -/
def Handled (v v' : TimerMachine) (x : ℕ) : Prop :=
  v.posts x < v'.posts x ∨ (v.schedule x).cancelled = true

/-- No timer is due any more when a pass ends. -/
theorem Waiting.not_ends (h : v.Waiting now x pc q) (hok : v.WorkerOk pc q) :
    pc.ends ≠ some now := by
  intro hends
  rcases h.place with hx | ⟨node, rfl⟩
  · obtain ⟨e, he, rfl⟩ := List.mem_map.1 hx
    exact not_le.2 (hok.pass.late now hends e he) h.due
  · cases hends

theorem Waiting.work (h : v.Waiting now x pc q) (hw : WorkStep v pc q pc' q')
    (hok : v.WorkerOk pc q) (hok' : PassOk v.deadlines v.now pc' q') :
    (pc'.time = some now ∧ (x ∈ q'.timers.map Prod.snd ∨ ∃ node, pc' = .extracted now node x)) ∨
      (v.schedule x).cancelled = true := by
  have htime := h.time
  cases hw with
  | noTimers _ hq =>
    rcases h.place with hx | ⟨node, heq⟩
    · rw [hq] at hx
      cases hx
    · cases heq
  | @extract _ node _ _ _ hq =>
    cases htime
    rcases h.place with hx | ⟨node, heq⟩
    · rw [hq] at hx
      rcases List.mem_cons.1 hx with rfl | hx
      · exact .inl ⟨rfl, .inr ⟨node, rfl⟩⟩
      · refine .inl ⟨rfl, .inl ?_⟩
        rw [TimerQueueInternal.extract, hq]
        exact hx
    · cases heq
  | notDue =>
    cases htime
    rcases h.place with hx | ⟨node, heq⟩
    · obtain ⟨e, he, rfl⟩ := List.mem_map.1 hx
      exact (not_le.2 (hok'.late _ rfl e he) h.due).elim
    · cases heq
  | notExpired | finish =>
    cases htime
    exact (h.not_ends hok rfl).elim
  | skip _ _ _ hcancel =>
    cases htime
    rcases h.place with hx | ⟨node', heq⟩
    · exact .inl ⟨rfl, .inl hx⟩
    · cases heq
      exact .inr hcancel
  | reinsert =>
    cases htime
    rcases h.place with hx | ⟨node', heq⟩
    · refine .inl ⟨rfl, .inl ?_⟩
      exact ((TimerQueueInternal.perm_insert _ _ _).map Prod.snd).mem_iff.2
        (List.mem_cons_of_mem _ hx)
    · cases heq
  | posted | unmapFired | unmapped | dying | reinserted =>
    cases htime
    rcases h.place with hx | ⟨node', heq⟩
    · exact .inl ⟨rfl, .inl hx⟩
    · cases heq
  | _ => cases htime

theorem Waiting.step (h : v.Waiting now x pc q) (hs : Step v v') (hsingle : v.SingleLoop)
    (hok : v.WorkerOk pc q) (ht : v.TimersOk pc q) :
    Handled v v' x ∨ ∃ pc' q', v'.Waiting now x pc' q' := by
  have htime := h.time
  have hx : x ≠ v.created := by
    rcases h.place with hx | ⟨node, hpc⟩
    · obtain ⟨e, he, rfl⟩ := List.mem_map.1 hx
      exact ht.old e he
    · exact ht.extracted _ _ _ hpc
  have hpc : pc ≠ .timedOut ∧ pc ≠ .aborted := by
    refine ⟨?_, ?_⟩ <;> rintro rfl <;> cases htime
  obtain ⟨pc', q', hl'⟩ := hs.exists_loop hsingle h.loop hpc
  cases hs.loop hsingle hl' with
  | same hl hc =>
    obtain ⟨rfl, rfl⟩ := hsingle.unique h.loop hl
    exact .inr ⟨pc, q, hl', htime, (hc.deadlines x hx).trans_le h.due, h.place⟩
  | start _ _ hidle => cases hidle.symm.trans (hsingle.not_idle h.loop)
  | step hl hstep =>
    obtain ⟨rfl, rfl⟩ := hsingle.unique h.loop hl
    cases hstep with
    | wait hwaits =>
      rw [time_of_waits hwaits] at htime
      cases htime
    | abort | take => cases htime
    | work hw _ hsched =>
      rcases h.work hw hok (hw.pass hok.containers hok.pass) with ⟨htime', hplace⟩ | hcancel
      · refine .inr ⟨pc', q', hl', htime', ?_, hplace⟩
        unfold deadlines
        rw [hsched]
        exact h.due
      · exact .inl (.inr hcancel)
    | @fire _ _ y _ _ hsched hposts =>
      cases htime
      by_cases hxy : x = y
      · subst hxy
        refine .inl (.inl ?_)
        rw [hposts, update_self]
        exact Nat.lt_succ_self _
      · rcases h.place with hx | ⟨node', heq⟩
        · refine .inr ⟨_, _, hl', rfl, ?_, .inl hx⟩
          unfold deadlines
          rw [hsched, update_of_ne hxy]
          exact h.due
        · cases heq
          exact (hxy rfl).elim

theorem Step.posts_le (hs : Step v v') (x : ℕ) : v.posts x ≤ v'.posts x := by
  cases hs with
  | @fire _ _ _ y =>
    change _ ≤ update v.posts y (v.posts y + 1) x
    by_cases hxy : x = y
    · subst hxy
      rw [update_self]
      exact Nat.le_succ _
    · rw [update_of_ne hxy]
  | _ => exact le_rfl

/-- A timer stays cancelled. -/
theorem Step.cancelled (hs : Step v v') (hx : x ≠ v.created)
    (hc : (v.schedule x).cancelled = true) : (v'.schedule x).cancelled = true := by
  have hupdate : ∀ {y : ℕ} {c : Schedule}, (y = x → c.cancelled = true) →
      (update v.schedule y c x).cancelled = true := by
    intro y c hcy
    by_cases hyx : x = y
    · subst hyx
      rw [update_self]
      exact hcy rfl
    · rw [update_of_ne hyx]
      exact hc
  cases hs with
  | make => exact hupdate fun heq => (hx heq.symm).elim
  | setFrequency | fire => exact hupdate fun heq => heq ▸ hc
  | flag => exact hupdate fun _ => rfl
  | _ => exact hc

end TimerMachine

namespace TimerSystem

open TimerMachine

variable {s s' : TimerSystem}

/-- `post` does not throw. -/
def PostReturns (_ : TimerSystem) (m : TimerMove) : Prop := m.throws = false

instance (s : TimerSystem) (m : TimerMove) : Decidable (PostReturns s m) :=
  inferInstanceAs (Decidable (m.throws = false))

variable {q : TimerQueueInternal}

/-- A timer that a pass has before it is posted before the pass ends, unless it is cancelled. -/
theorem handled_of_run {as : List TimerMove} {now x : ℕ} {pc : WorkLoopPc} (h : Reachable s)
    (hw : s.machine.Waiting now x pc q) (hx : x < s.created) (hr : run step s as = some s') :
    (s.posts x < s'.posts x ∨ (s'.timers x).cancelled = true) ∨
      ∃ pc q, s'.machine.Waiting now x pc q := by
  have hinv := run_invariant
    (fun u : TimerSystem => Reachable u ∧ x < u.created ∧ s.posts x ≤ u.posts x ∧
      ((s.posts x < u.posts x ∨ (u.timers x).cancelled = true) ∨
        ∃ pc q, u.machine.Waiting now x pc q))
    (fun u m u' ⟨hu, hxu, hle, hwait⟩ hs => by
      have hstep := step_machine (delayInv_of_reachable hu) hs
      have hle' : s.posts x ≤ u'.posts x := hle.trans (hstep.posts_le x)
      refine ⟨.next hu trivial hs, hxu.trans_le hstep.created_le, hle', ?_⟩
      rcases hwait with (hpost | hcancel) | ⟨pc, q, hwait⟩
      · exact .inl (.inl (hpost.trans_le (hstep.posts_le x)))
      · exact .inl (.inr (hstep.cancelled (ne_of_lt hxu) hcancel))
      · rcases hwait.step hstep (loopInv_of_reachable hu).single
          (workerOk_of_reachable hu _ _ hwait.loop)
          (timersOk_of_reachable hu hwait.loop) with (hpost | hcancel) | hwait
        · exact .inl (.inl (hle.trans_lt hpost))
        · exact .inl (.inr (hstep.cancelled (ne_of_lt hxu) hcancel))
        · exact .inr hwait) ⟨h, hx, le_rfl, .inr ⟨pc, q, hw⟩⟩ hr
  exact hinv.2.2.2

/-! ### What ends the program -/

section Terminated

variable {t : TimerThread} {f : Frame} {rest fs : List Frame} {x : ℕ} {o : Owner}

theorem destroyTimer_terminated : (s.destroyTimer x).terminated = s.terminated := by
  unfold destroyTimer
  split <;> rfl

theorem drop_terminated : (s.drop t x o fs).terminated = s.terminated := by
  unfold drop
  simp only
  split_ifs
  · exact destroyTimer_terminated
  · rfl

theorem invokeCallable_terminated : (s.invokeCallable x).terminated = s.terminated := by
  unfold invokeCallable
  split
  · rfl
  · split <;> rfl

/-- No function of the timer queue ends the program. -/
theorem nextStep_terminated (hs : s.nextStep t rest f = some s') :
    s'.terminated = s.terminated := by
  unfold nextStep makeTimerStep ensureWorkerThread cancelStep shutdownStep workLoopStep
    processTimersStep taskStep acquire at hs
  repeat' split at hs
  all_goals cases hs
  all_goals first
    | rfl
    | exact drop_terminated
    | exact invokeCallable_terminated

end Terminated

/-- As long as `post` returns, only a thread that cannot be started ends the program. -/
theorem fail_of_terminated {m : TimerMove} (hm : PostReturns s m) (hs : s.step m = some s')
    (hterm : s'.terminated = true) : ∃ t, m = .fail t := by
  unfold step at hs
  split_ifs at hs with hlive
  have hsame : s'.terminated ≠ s.terminated := fun heq => hlive (heq ▸ hterm)
  cases m with
  | fail t => exact ⟨t, rfl⟩
  | throw => cases hm
  | step =>
    simp only [liveStep] at hs
    split at hs
    · cases hs
    · exact (hsame (nextStep_terminated hs)).elim
  | _ =>
    refine (hsame ?_).elim
    simp only [liveStep, call, timeout, acquire, post, takeTask] at hs
    repeat' split at hs
    all_goals cases hs <;> rfl

/-- An exception of `post` ends the program, with the worker inside its pass. -/
theorem throw_ends_program {m : TimerMove} (hm : ¬ PostReturns s m) (hs : s.step m = some s') :
    s'.terminated = true ∧ (∀ t, m ≠ .fail t) ∧ ∀ m', s'.step m' = none := by
  cases m with
  | throw t =>
    simp only [step, liveStep] at hs
    split_ifs at hs
    obtain ⟨_, _, _, _, _, _, _, -, rfl⟩ := post_eq_some hs
    exact ⟨rfl, fun u hu => (by cases hu), fun m' => if_pos rfl⟩
  | _ => exact absurd rfl hm

/-! ### Passes -/

/-- Two timers are made, and are due when the worker begins its pass. -/
def twoDueTimers : List TimerMove :=
  [.enter 0, .call (.caller 0) (.makeTimer true 0 5)] ++ List.replicate 6 (.step (.caller 0)) ++
    .call (.caller 0) (.makeTimer true 0 7) :: List.replicate 6 (.step (.caller 0)) ++
    .leave (.worker 0) :: List.replicate 6 (.step (.worker 0))

/-- The executor of the first timer throws. -/
def throwingPost : List TimerMove :=
  twoDueTimers ++ [.step (.worker 0), .step (.worker 0), .throw (.worker 0)]

/-- The exception ends the program inside `process_timers`: the timer that was fired is in the map
and not in the multiset, and the other one, which is due, is never posted. -/
theorem throwing_post_ends_worker :
    ∃ s, Reachable s ∧ s.terminated = true ∧
      s.frames (.worker 0) = [.workLoop (.post 0 0 0 0) ⟨[(1, 1)], [(1, 1), (0, 0)], 2⟩ 0] ∧
      (s.timers 1).expired 0 = true ∧ (s.timers 1).cancelled = false ∧ s.posts 1 = 0 ∧
      ∀ m, s.step m = none := by
  have hterm : (lastState step initial throwingPost).terminated = true := by decide +kernel
  refine ⟨_, .lastState (by rfl) throwingPost, hterm, ?_, ?_, ?_, ?_, fun m => ?_⟩
  case refine_5 => exact if_pos hterm
  all_goals decide +kernel

/-- **A pass posts every timer that is due, as long as `post` returns.**

The two containers of a worker describe the same timers, but for the one that it has in hand; no
exception leaves `work_loop`; and when a pass ends, a timer that was due in it has been posted, or
it is cancelled. -/
theorem pass_posts_every_due_timer (h : Reach step IsInitial PostReturns s) :
    (∀ t pc q deadline, .workLoop pc q deadline ∈ s.frames t → pc ≠ .aborted →
      (q.iteratorMapper.map Prod.swap).Perm (pc.hand q ++ q.timers)) ∧
    (∀ m s', PostReturns s m → s.step m = some s' → s'.terminated = true → ∃ t, m = .fail t) ∧
    (∀ t now q deadline rest, s.frames t = .workLoop (.pass now) q deadline :: rest →
      ∀ as s', run step s as = some s' →
        ∀ u now' q' deadline', .workLoop (.finish now') q' deadline' ∈ s'.frames u →
          ∀ e ∈ q.timers, (s.timers e.2).expired now = true →
            s.posts e.2 < s'.posts e.2 ∨ (s'.timers e.2).cancelled = true) := by
  have hr : Reachable s := h.reachable
  refine ⟨?_, ?_, ?_⟩
  · intro t pc q d hmem hpc
    exact ((workerOk_of_reachable hr pc q ⟨t, d, hmem⟩).containers.agrees hpc).perm
  · intro m s' hm hs hterm
    exact fail_of_terminated hm hs hterm
  · intro t now q d rest hf as s' hrun u now' q' d' hmem e he hexp
    have hloop : s.machine.Loop (.pass now) q := loop_of_head hf
    have hwait : s.machine.Waiting now e.2 (.pass now) q :=
      ⟨hloop, rfl, of_decide_eq_true hexp, Or.inl (List.mem_map_of_mem he)⟩
    have hx : e.2 < s.created := by
      refine (delayInv_of_reachable hr).ok.old (some t) ⟨e.2, none, .element t, true⟩ ?_
      refine mem_stack_of_loop (hf ▸ List.mem_cons_self) (List.mem_append_right _ ?_)
      exact List.mem_map_of_mem he
    have hr' : Reachable s' := Reachable.run hr hrun
    rcases handled_of_run hr hwait hx hrun with hdone | ⟨pc', q'', hwait'⟩
    · exact hdone
    · -- the pass cannot have ended with the timer before it
      have hfinish : s'.machine.Loop (.finish now') q' := ⟨u, d', hmem⟩
      obtain ⟨rfl, rfl⟩ := (loopInv_of_reachable hr').single.unique hfinish hwait'.loop
      have htime := hwait'.time
      cases htime
      exact (hwait'.not_ends (workerOk_of_reachable hr' _ _ hfinish) rfl).elim

theorem pass_posts_every_due_timer_of_two :
    ∃ s, Reach step IsInitial PostReturns s ∧
      s.frames (.worker 0) = [.workLoop (.pass 0) ⟨[(0, 0), (1, 1)], [(1, 1), (0, 0)], 2⟩ 0] ∧
      ∀ as s', run step s as = some s' →
        ∀ u now q deadline, .workLoop (.finish now) q deadline ∈ s'.frames u →
          s.posts 1 < s'.posts 1 ∨ (s'.timers 1).cancelled = true := by
  let s := lastState (restrict step PostReturns) initial twoDueTimers
  have h : Reach step IsInitial PostReturns s := .lastState (by rfl) twoDueTimers
  have hframes : s.frames (.worker 0) =
      [.workLoop (.pass 0) ⟨[(0, 0), (1, 1)], [(1, 1), (0, 0)], 2⟩ 0] := by decide +kernel
  obtain ⟨-, -, hpass⟩ := pass_posts_every_due_timer h
  refine ⟨s, h, hframes, fun as s' hrun u now q d hmem => ?_⟩
  exact hpass (.worker 0) 0 _ 0 [] hframes as s' hrun u now q d hmem (1, 1) (by simp)
    (by decide +kernel)

end TimerSystem
end Concurrencpp
