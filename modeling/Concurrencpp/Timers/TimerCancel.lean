import Concurrencpp.Timers.TimerFailure

/-!
# Cancelled timers

`timer::cancel` stores the flag of the timer, and asks the worker to remove it.

* `Gone`: the timer is in no container, and nothing is on its way to put it there.  This stays.
* `cancel_is_final`: behind the flag the timer is neither posted nor invoked, and behind the removal
  it is in neither container.
-/

namespace Concurrencpp

open Interleaving

namespace TimerMachine

variable {v v' : TimerMachine} {pc pc' : WorkLoopPc} {q q' : TimerQueueInternal} {x : ℕ}

/-- The timer is in neither container. -/
structure Absent (q : TimerQueueInternal) (x : ℕ) : Prop where
  mapper : x ∉ q.iteratorMapper.map Prod.fst
  timers : x ∉ q.timers.map Prod.snd

theorem Absent.sub (h : Absent q x) (hm : q'.iteratorMapper.Sublist q.iteratorMapper)
    (ht : q'.timers.Sublist q.timers) : Absent q' x :=
  ⟨fun hx => h.mapper ((hm.map _).subset hx), fun hx => h.timers ((ht.map _).subset hx)⟩

/-- Another timer goes into the containers. -/
theorem Absent.insert {y node : ℕ} {deadline : ℕ → ℕ} (h : Absent q x) (hy : x ≠ y)
    (hm : ∀ e ∈ q'.iteratorMapper, e = (y, node) ∨ e ∈ q.iteratorMapper)
    (ht : q'.timers = TimerQueueInternal.insert deadline (node, y) q.timers) : Absent q' x := by
  constructor
  case mapper =>
    intro hx
    obtain ⟨e, he, rfl⟩ := List.mem_map.1 hx
    rcases hm e he with rfl | he
    · exact hy rfl
    · exact h.mapper (List.mem_map_of_mem he)
  case timers =>
    intro hx
    rw [ht] at hx
    rcases List.mem_cons.1 (((TimerQueueInternal.perm_insert _ _ _).map Prod.snd).mem_iff.1 hx) with
      heq | hx
    · exact hy heq
    · exact h.timers hx

theorem WorkStep.absent (hw : WorkStep v pc q pc' q') (hok : ContainersOk v.deadlines pc q)
    (hnew : ∀ rs, pc ≠ .process ((x, .add) :: rs)) (h : Absent q x) : Absent q' x := by
  cases hw with
  | add _ rs =>
    refine h.insert (fun heq => hnew rs (heq ▸ rfl)) (fun e he => ?_) rfl
    exact List.mem_cons.1 he
  | erase y _ q =>
    cases hfind : q.find y with
    | none => exact h
    | some => exact h.sub (.refl _) List.filter_sublist
  | unmap | unmapFired => exact h.sub List.filter_sublist (.refl _)
  | extract => exact h.sub (.refl _) (List.tail_sublist _)
  | @reinsert _ node y _ q =>
    -- the timer in hand is in the map
    have hmem : (y, node) ∈ q.iteratorMapper := (hok.agrees (by simp)).mem_iff.2 List.mem_cons_self
    refine h.insert (fun heq => h.mapper (heq ▸ List.mem_map_of_mem hmem)) (fun e he => ?_) rfl
    rcases List.mem_cons.1 he with heq | he
    · exact .inl heq
    · exact .inr (List.filter_sublist.subset he)
  | abandon ht hm => exact h.sub hm ht
  | _ => exact h

/-- The timer is in no container, and is not on its way there. -/
structure Gone (v : TimerMachine) (x : ℕ) : Prop where
  old : x < v.created
  added : ¬ v.ToAdd x
  absent : ∀ pc q, v.Loop pc q → Absent q x

theorem Gone.step (h : v.Gone x) (hs : Step v v') (hsingle : v.SingleLoop)
    (hok : ∀ pc q, v.Loop pc q → v.WorkerOk pc q) : v'.Gone x := by
  constructor
  case old => exact h.old.trans_le hs.created_le
  case added => exact fun hadd => h.added (hs.toAdd hsingle (ne_of_lt h.old) hadd)
  case absent =>
    intro pc q hl
    cases hs.loop hsingle hl with
    | same hl => exact h.absent pc q hl
    | start _ hq =>
      rw [hq]
      exact ⟨by simp [TimerQueueInternal.init], by simp [TimerQueueInternal.init]⟩
    | step hl hstep =>
      cases hstep with
      | wait | abort | take | fire => exact h.absent _ _ hl
      | work hw =>
        refine hw.absent (hok _ _ hl).containers (fun rs hpc => h.added ?_) (h.absent _ _ hl)
        exact .inr (.inr ⟨_, _, hl, hpc ▸ List.mem_cons_self⟩)

/-- `remove_timer_internal` ends: the timer is gone. -/
theorem gone_of_removed {rs : List (ℕ × TimerRequest)} (hl : v.Loop (.removed x rs) q)
    (hsingle : v.SingleLoop) (ht : v.TokensOk) (ho : v.OrderOk)
    (hok : v.WorkerOk (.removed x rs) q) : v.Gone x := by
  have hmapper : x ∉ q.iteratorMapper.map Prod.fst :=
    TimerQueueInternal.find_eq_none.1 (hok.containers.removed x rs rfl)
  have habsent : Absent q x :=
    ⟨hmapper, fun hx => hmapper ((hok.containers.agrees (by simp)).mem_keys.2 hx)⟩
  constructor
  case old =>
    obtain ⟨t, d, hmem⟩ := hl
    refine ht.old x (.inl ⟨some t, List.mem_flatMap.2 ⟨_, hmem, ?_⟩⟩)
    exact mem_removals.2 List.mem_cons_self
  case added => exact ho.not_toAdd ht hsingle hl rfl
  case absent =>
    intro pc' q' hl'
    obtain ⟨-, rfl⟩ := hsingle.unique hl hl'
    exact habsent

/-- Only timers that have been made are cancelled. -/
def CancelledOld (v : TimerMachine) : Prop := ∀ x, (v.schedule x).cancelled = true → x < v.created

theorem CancelledOld.step (h : v.CancelledOld) (ht : v.TokensOk) (hs : Step v v') :
    v'.CancelledOld := by
  intro x hx
  have hupdate : ∀ {y : ℕ} {c : Schedule}, (Function.update v.schedule y c x).cancelled = true →
      (x = y ∧ c.cancelled = true) ∨ (v.schedule x).cancelled = true := by
    intro y c hc
    by_cases hxy : x = y
    · subst hxy
      rw [Function.update_self] at hc
      exact .inl ⟨rfl, hc⟩
    · rw [Function.update_of_ne hxy] at hc
      exact .inr hc
  cases hs with
  | make =>
    rcases hupdate hx with ⟨rfl, -⟩ | hx
    · exact Nat.lt_succ_self _
    · exact Nat.lt_succ_of_lt (h x hx)
  | setFrequency | fire =>
    rcases hupdate hx with ⟨rfl, hc⟩ | hx
    · exact h x hc
    · exact h x hx
  | @flag t _ _ hf =>
    rcases hupdate hx with ⟨rfl, -⟩ | hx
    · refine ht.old x (.inl ⟨some t, List.mem_flatMap.2 ⟨_, hf ▸ List.mem_cons_self, ?_⟩⟩)
      exact List.mem_cons_self
    · exact h x hx
  | _ => exact h x hx

end TimerMachine

namespace TimerSystem

open TimerMachine

variable {s s' : TimerSystem} {t : TimerThread} {x : ℕ} {as : List TimerMove}

theorem cancelledOld_of_reachable (h : Reachable s) : s.machine.CancelledOld := by
  induction h with
  | start hs =>
    cases hs
    intro x hx
    cases hx
  | next hr _ hs ih =>
    exact ih.step (requestsInv_of_reachable hr).tokens (step_machine (delayInv_of_reachable hr) hs)

theorem cancelled_of_run (h : Reachable s) (hc : (s.timers x).cancelled = true)
    (hr : run step s as = some s') : (s'.timers x).cancelled = true := by
  have hinv := run_invariant
    (fun u : TimerSystem => Reachable u ∧ (u.timers x).cancelled = true)
    (fun u m u' ⟨hu, hcu⟩ hs => by
      have hstep := step_machine (delayInv_of_reachable hu) hs
      have hx : x < u.created := cancelledOld_of_reachable hu x hcu
      exact ⟨.next hu trivial hs, hstep.cancelled (ne_of_lt hx) hcu⟩) ⟨h, hc⟩ hr
  exact hinv.2

theorem gone_of_run (h : Reachable s) (hg : s.machine.Gone x) (hr : run step s as = some s') :
    s'.machine.Gone x := by
  have hinv := run_invariant
    (fun u : TimerSystem => Reachable u ∧ u.machine.Gone x)
    (fun u m u' ⟨hu, hgu⟩ hs => by
      have hstep := step_machine (delayInv_of_reachable hu) hs
      exact ⟨.next hu trivial hs,
        hgu.step hstep (loopInv_of_reachable hu).single (workerOk_of_reachable hu)⟩) ⟨h, hg⟩ hr
  exact hinv.2

/-- A task that reads the flag of a cancelled timer does not invoke its callable. -/
theorem execute_of_cancelled {k : ℕ} {rest : List Frame} (hc : (s.timers x).cancelled = true)
    (hf : s.frames t = .task x k .execute :: rest) (hs : s.step (.step t) = some s') :
    s' = s.setFrames t (.task x k .destroy :: rest) := by
  unfold step at hs
  split_ifs at hs
  simp only [liveStep, hf, nextStep, taskStep, hc, if_true, Option.some.injEq] at hs
  exact hs.symm

/-- An iteration of `process_timers` that reads the flag of a cancelled timer does not fire it. -/
theorem skip_of_cancelled {now node deadline : ℕ} {q : TimerQueueInternal} {rest : List Frame}
    (hc : (s.timers x).cancelled = true)
    (hf : s.frames t = .workLoop (.extracted now node x) q deadline :: rest)
    (hs : s.step (.step t) = some s') :
    s' = s.setFrames t (.workLoop (.fired now node x true) q deadline :: rest) := by
  unfold step at hs
  split_ifs at hs
  simp only [liveStep, hf, nextStep, workLoopStep, processTimersStep, hc, if_true,
    Option.some.injEq] at hs
  exact hs.symm

/-- **Cancelling a timer is final.**

Once the flag is set it stays set: a posted task that reads it is destroyed without another effect,
and a pass that reads it goes on without posting the timer.  Once `remove_timer_internal` ends for
the timer, it is in neither container, and does not come back. -/
theorem cancel_is_final (h : Reachable s) :
    (∀ x, (s.timers x).cancelled = true → ∀ as s', run step s as = some s' →
      (s'.timers x).cancelled = true ∧
      (∀ t k rest s'', s'.frames t = .task x k .execute :: rest → s'.step (.step t) = some s'' →
        s'' = s'.setFrames t (.task x k .destroy :: rest)) ∧
      (∀ t now node q deadline rest s'',
        s'.frames t = .workLoop (.extracted now node x) q deadline :: rest →
        s'.step (.step t) = some s'' →
        s'' = s'.setFrames t (.workLoop (.fired now node x true) q deadline :: rest))) ∧
    (∀ t x rs q deadline rest, s.frames t = .workLoop (.removed x rs) q deadline :: rest →
      ∀ as s', run step s as = some s' →
        ∀ u pc q' deadline', .workLoop pc q' deadline' ∈ s'.frames u →
          x ∉ q'.timers.map Prod.snd ∧ x ∉ q'.iteratorMapper.map Prod.fst) := by
  refine ⟨fun x hc as s' hr => ?_, fun t x rs q d rest hf as s' hr u pc q' d' hmem => ?_⟩
  · have hc' := cancelled_of_run h hc hr
    refine ⟨hc', fun t k rest s'' hf hs => ?_, fun t now node q d rest s'' hf hs => ?_⟩
    · exact execute_of_cancelled hc' hf hs
    · exact skip_of_cancelled hc' hf hs
  · have hloop : s.machine.Loop (.removed x rs) q := loop_of_head hf
    have hreq := requestsInv_of_reachable h
    have hgone : s.machine.Gone x :=
      gone_of_removed hloop (loopInv_of_reachable h).single hreq.tokens
      hreq.order (workerOk_of_reachable h _ _ hloop)
    have habsent := (gone_of_run h hgone hr).absent pc q' ⟨u, d', hmem⟩
    exact ⟨habsent.timers, habsent.mapper⟩

/-- A timer is made and cancelled, and the worker adds and removes it. -/
def cancelledTimer : List TimerMove :=
  [.enter 0, .call (.caller 0) (.makeTimer true 5 5), .step (.caller 0), .step (.caller 0),
    .step (.caller 0), .step (.caller 0), .step (.caller 0), .step (.caller 0),
    .call (.caller 0) (.cancel 0), .step (.caller 0), .step (.caller 0), .step (.caller 0),
    .leave (.worker 0), .step (.worker 0), .step (.worker 0), .step (.worker 0), .step (.worker 0),
    .step (.worker 0), .step (.worker 0), .step (.worker 0)]

theorem cancel_is_final_of_removed :
    ∃ s, Reachable s ∧ (s.timers 0).cancelled = true ∧
      s.frames (.worker 0) = [.workLoop (.removed 0 []) ⟨[], [], 1⟩ 0] ∧
      ∀ as s', run step s as = some s' → (s'.timers 0).cancelled = true ∧
        ∀ u pc q deadline, .workLoop pc q deadline ∈ s'.frames u →
          0 ∉ q.timers.map Prod.snd ∧ 0 ∉ q.iteratorMapper.map Prod.fst := by
  let s := lastState step initial cancelledTimer
  have h : Reachable s := .lastState (by rfl) cancelledTimer
  have hcancel : (s.timers 0).cancelled = true := by decide +kernel
  have hframes : s.frames (.worker 0) = [.workLoop (.removed 0 []) ⟨[], [], 1⟩ 0] := by
    decide +kernel
  obtain ⟨hflag, hremoved⟩ := cancel_is_final h
  refine ⟨s, h, hcancel, hframes, fun as s' hrun => ?_⟩
  exact ⟨(hflag 0 hcancel as s' hrun).1, hremoved (.worker 0) 0 [] _ 0 [] hframes as s' hrun⟩

end TimerSystem
end Concurrencpp
