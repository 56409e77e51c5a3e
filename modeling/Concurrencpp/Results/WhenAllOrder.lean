import Concurrencpp.Results.WhenAllStages

/-!
# `when_all` completes after all of its results

The loop of `when_all_impl` against the producers of its results.

* `Ok.step`, `ok_of_run`: every result is at its stage in every interleaving.  A step takes one
  result from one stage to the next and leaves the others where they are (`Ok.update`);
* `stepsLeft`: the coroutine's own steps are bounded, whatever the producers do, and it is stopped
  inside the loop only by a result whose producer has not completed (`Ok.progress`,
  `Ok.terminates`);
* `completes_in_place` puts these together with the checks of `when_all`.
-/

namespace Concurrencpp

open Interleaving
open Function (update_self update_of_ne)

/-- A step of the coroutine itself. -/
def WhenAllMove.ofCoroutine {ι : Type} {α : ι → Type} {ε : Type} : WhenAllMove α ε → Bool
  | .coroutine => true
  | _ => false

/-! ### The invariant -/

namespace WhenAll

variable {ι : Type} {α : ι → Type} {ε : Type} {s t : WhenAll α ε} {r : ι} {i : ℕ}

/-- Every result is a `Protocol` at the stage that the coroutine's program point says. -/
structure Ok (s : WhenAll α ε) : Prop where
  nodup : s.collection.Nodup
  reachable : ∀ r ∈ s.collection, Protocol.Reachable (s.states r)
  outcomes : ∀ r ∈ s.collection, (s.states r).state.producer = s.outcomes r
  stages : ∀ i r, s.collection[i]? = some r →
    (s.coroutine.stage i).Ok (s.states r) (s.suspensions r) (s.resumptions r)
  within : s.coroutine.Within s.collection

theorem Ok.goto {pc : WhenAllPc ι} (h : s.Ok)
    (hstage : ∀ i, i < s.collection.length → pc.stage i = s.coroutine.stage i)
    (hwithin : pc.Within s.collection) : (s.goto pc).Ok where
  nodup := h.nodup
  reachable := h.reachable
  outcomes := h.outcomes
  stages := fun i r hi => by
    have hlt : i < s.collection.length := (List.getElem?_eq_some_iff.1 hi).1
    change (pc.stage i).Ok _ _ _
    rw [hstage i hlt]
    exact h.stages i r hi
  within := hwithin

variable [DecidableEq ι] {p : Protocol (α r) ε}

/-- The result `r` at `i` takes a step, and the coroutine with it. -/
theorem Ok.update (h : s.Ok) (hi : s.collection[i]? = some r)
    (hcollection : t.collection = s.collection) (hstates : t.states = Function.update s.states r p)
    (hreach : Protocol.Reachable p) (houtcome : p.state.producer = t.outcomes r)
    (hother : ∀ r', r' ≠ r → t.outcomes r' = s.outcomes r' ∧ t.suspensions r' = s.suspensions r' ∧
      t.resumptions r' = s.resumptions r')
    (hstage : (t.coroutine.stage i).Ok p (t.suspensions r) (t.resumptions r))
    (hstages : ∀ j, j ≠ i → t.coroutine.stage j = s.coroutine.stage j)
    (hwithin : t.coroutine.Within s.collection) : t.Ok where
  nodup := hcollection ▸ h.nodup
  reachable := by
    rw [hcollection, hstates]
    exact (Function.forall_update_iff s.states fun r' q => r' ∈ s.collection → q.Reachable).2
      ⟨fun _ => hreach, fun r' _ => h.reachable r'⟩
  outcomes := fun r' hr' => by
    rw [hcollection] at hr'
    rw [hstates]
    by_cases hr : r' = r
    · subst hr
      rw [update_self]
      exact houtcome
    · rw [update_of_ne hr, (hother r' hr).1]
      exact h.outcomes r' hr'
  stages := fun j r' hj => by
    rw [hcollection] at hj
    rw [hstates]
    by_cases hji : j = i
    · subst hji
      cases hi.symm.trans hj
      rw [update_self]
      exact hstage
    · -- the results are distinct, so that another position holds another result
      have hr : r' ≠ r := by
        rintro rfl
        have hlt : j < s.collection.length := (List.getElem?_eq_some_iff.1 hj).1
        exact hji ((List.getElem?_inj hlt h.nodup).1 (hj.trans hi.symm))
      rw [update_of_ne hr, (hother r' hr).2.1, (hother r' hr).2.2, hstages j hji]
      exact h.stages j r' hj
  within := hcollection ▸ hwithin

/-! ### The steps -/

/-- What a step can do. -/
inductive Effect (s : WhenAll α ε) : WhenAllMove α ε → WhenAll α ε → Prop
  | begin {i : ℕ} {r : ι} {p : Protocol (α r) ε} (hpc : s.coroutine = .loop i)
      (hi : s.collection[i]? = some r) (hp : (s.states r).call .resolve = some p) :
      Effect s .coroutine ((s.setState r p).goto (.awaiting i))
  | leave {i : ℕ} (hpc : s.coroutine = .loop i) (hi : s.collection[i]? = none) :
      Effect s .coroutine (s.goto .resumeOn)
  | await {i : ℕ} {r : ι} {p : Protocol (α r) ε} (hpc : s.coroutine = .awaiting i)
      (hi : s.collection[i]? = some r) (hp : (s.states r).consumerStep = some p) :
      Effect s .coroutine ((s.setState r p).afterAwait i r p.consumer)
  | post (hpc : s.coroutine = .resumeOn) : Effect s .coroutine (s.goto .posted)
  | hop {interrupted : Bool} (hpc : s.coroutine = .posted) : Effect s (.executor interrupted)
      (s.goto (if interrupted then .broken else .returned s.collection))
  | input {r : ι} {m : Move (α r) ε} {p : Protocol (α r) ε} (hr : r ∈ s.collection)
      (hm : m.ofProducer = true) (hp : (s.states r).step m = some p) :
      Effect s (.input r m) ((s.setState r p).afterInput r (s.states r).producer m)

theorem step_cases {m : WhenAllMove α ε} (hs : s.step m = some t) : Effect s m t := by
  cases m with
  | coroutine =>
    simp only [step, coroutineStep] at hs
    split at hs
    · next i hpc =>
      split at hs
      · next r hi =>
        obtain ⟨p, hp, rfl⟩ := Option.map_eq_some_iff.1 hs
        exact .begin hpc hi hp
      · next hi =>
        cases hs
        exact .leave hpc hi
    · next i hpc =>
      split at hs
      · next r hi =>
        obtain ⟨p, hp, rfl⟩ := Option.map_eq_some_iff.1 hs
        exact .await hpc hi hp
      · cases hs
    · cases hs
    · next hpc =>
      cases hs
      exact .post hpc
    all_goals cases hs
  | executor =>
    simp only [step, executorStep] at hs
    split at hs
    · next hpc =>
      cases hs
      exact .hop hpc
    · cases hs
  | input =>
    simp only [step, inputStep] at hs
    split_ifs at hs with hr
    obtain ⟨p, hp, rfl⟩ := Option.map_eq_some_iff.1 hs
    exact .input hr.1 hr.2 hp

variable {m : Move (α r) ε}

/-- A step of a producer that calls no handle changes nothing but the record of its outcome. -/
theorem afterInput_of_not_callHandle {pc : ProducerPc} (s : WhenAll α ε)
    (hhandle : m = .producer → ∀ i, pc ≠ .callHandle i) :
    ∃ outcomes, s.afterInput r pc m = { s with outcomes := outcomes } ∧
      ∀ r', r' ≠ r → outcomes r' = s.outcomes r' := by
  cases m with
  | setResult | setException => exact ⟨_, rfl, fun r' hr' => update_of_ne hr' ..⟩
  | producer =>
    refine ⟨s.outcomes, ?_, fun _ _ => rfl⟩
    cases pc with
    | callHandle i => exact absurd rfl (hhandle rfl i)
    | _ => rfl
  | _ => exact ⟨s.outcomes, rfl, fun _ _ => rfl⟩

theorem callHandle_outcomes (s : WhenAll α ε) (r : ι) : (s.callHandle r).outcomes = s.outcomes := by
  simp only [callHandle]
  split <;> rfl

/-- The record of the outcomes follows the producers. -/
theorem outcome_afterInput (h : (s.states r).state.producer = s.outcomes r)
    (hm : m.ofProducer = true) (hp : (s.states r).step m = some p) :
    p.state.producer = ((s.setState r p).afterInput r (s.states r).producer m).outcomes r := by
  cases m with
  | call | consumer | timeout => cases hm
  | setResult | setException =>
    obtain ⟨-, rfl⟩ := Protocol.build_eq_some hp
    change _ = Function.update s.outcomes r _ r
    rw [update_self]
  | completeProducer =>
    obtain ⟨-, rfl⟩ := Protocol.completeProducer_eq_some hp
    exact h
  | producer =>
    rw [(Protocol.producerStep_effect hp).outcome, h]
    simp only [afterInput]
    split
    · exact (congrFun (callHandle_outcomes (s.setState r p) r) r).symm
    · rfl

theorem Ok.begin (h : s.Ok) (hpc : s.coroutine = .loop i) (hi : s.collection[i]? = some r)
    (hp : (s.states r).call .resolve = some p) : ((s.setState r p).goto (.awaiting i)).Ok := by
  have hr : r ∈ s.collection := List.mem_of_getElem? hi
  have hstage := h.stages i r hi
  rw [hpc, WhenAllPc.stage_loop_self] at hstage
  have houtcome : p.state.producer = s.outcomes r := by
    rw [← h.outcomes r hr]
    obtain ⟨last, hc⟩ := hstage.1
    simp only [Protocol.call, hc] at hp
    cases hp
    rfl
  refine h.update hi rfl rfl ((h.reachable r hr).next (a := .call .resolve) trivial hp) houtcome
    (fun _ _ => ⟨rfl, rfl, rfl⟩) ?_ (fun j hj => ?_) (List.getElem?_eq_some_iff.1 hi).1
  · change ((WhenAllPc.awaiting i : WhenAllPc ι).stage i).Ok _ _ _
    rw [WhenAllPc.stage_awaiting_self]
    exact (hstage.begin hp).1
  · rw [hpc]
    exact (WhenAllPc.stage_of_ne hj).1

theorem afterAwait_of_running {pc : AwaitPc} (h : pc.running = true) :
    s.afterAwait i r (.await pc .ret) = s := by
  cases pc with
  | suspended => cases h
  | _ => rfl

/-- A step inside `await` ends it, suspends the coroutine, or leads to the next one. -/
theorem Ok.await (h : s.Ok) (hpc : s.coroutine = .awaiting i) (hi : s.collection[i]? = some r)
    (hp : (s.states r).consumerStep = some p) :
    ((s.setState r p).afterAwait i r p.consumer).Ok := by
  have hr : r ∈ s.collection := List.mem_of_getElem? hi
  have hreach : Protocol.Reachable p := (h.reachable r hr).next (a := .consumer) trivial hp
  have hframe := Protocol.consumerStep_effect hp
  have houtcome : p.state.producer = s.outcomes r := hframe.outcome.trans (h.outcomes r hr)
  have hstage := h.stages i r hi
  rw [hpc, WhenAllPc.stage_awaiting_self] at hstage
  obtain ⟨⟨pc, hc, -⟩, hsus, hres⟩ := hstage
  have hother : ∀ {j}, j ≠ i → s.coroutine.stage j = (WhenAllPc.loop i : WhenAllPc ι).stage j := by
    intro j hj
    rw [hpc, (WhenAllPc.stage_of_ne hj).1]
  rcases Protocol.await_cases (Protocol.inv_of_reachable (h.reachable r hr)) hc hp with
    ⟨hready, hpub⟩ | ⟨k, hk⟩ | ⟨pc', hpc', hrun, -⟩
  · rw [hready]
    refine h.update hi rfl rfl hreach houtcome (fun _ _ => ⟨rfl, rfl, rfl⟩) ?_
      (fun j hj => ?_) trivial
    · change ((WhenAllPc.loop (i + 1) : WhenAllPc ι).stage i).Ok p (s.suspensions r)
        (s.resumptions r)
      rw [WhenAllPc.stage_loop_succ, hsus, hres]
      exact ⟨⟨_, hready⟩, by rw [hframe.producer]; exact hpub, rfl, by decide⟩
    · rw [hother hj]
      exact (WhenAllPc.stage_of_ne hj).2.2
  · rw [hk]
    refine h.update hi rfl rfl hreach houtcome (fun r' hr' => ⟨rfl, ?_, rfl⟩) ?_ (fun j hj => ?_)
      (List.getElem?_eq_some_iff.1 hi).1
    · exact update_of_ne hr' ..
    · change ((WhenAllPc.suspended i : WhenAllPc ι).stage i).Ok p
        (Function.update s.suspensions r (s.suspensions r + 1) r) (s.resumptions r)
      rw [WhenAllPc.stage_suspended_self, update_self, hsus]
      exact ⟨⟨k, hk⟩, rfl, hres⟩
    · rw [hother hj]
      exact (WhenAllPc.stage_of_ne hj).2.1
  · rw [hpc', afterAwait_of_running hrun]
    refine h.update hi rfl rfl hreach houtcome (fun _ _ => ⟨rfl, rfl, rfl⟩) ?_ (fun j hj => rfl)
      h.within
    change (s.coroutine.stage i).Ok p (s.suspensions r) (s.resumptions r)
    rw [hpc, WhenAllPc.stage_awaiting_self]
    exact ⟨⟨pc', hpc', hrun⟩, hsus, hres⟩

/-- A producer that calls a handle finds the coroutine suspended on its result. -/
theorem Ok.suspended_of_callHandle {k : ℕ} (h : s.Ok) (hi : s.collection[i]? = some r)
    (hk : (s.states r).producer = .callHandle k) (hp : (s.states r).producerStep = some p) :
    s.coroutine = .suspended i ∧ Stage.passed.Ok p (s.suspensions r) (s.resumptions r + 1) ∧
      (s.setState r p).callHandle r = { s.setState r p with
        coroutine := .loop (i + 1)
        resumptions := Function.update s.resumptions r (s.resumptions r + 1) } := by
  have hr : r ∈ s.collection := List.mem_of_getElem? hi
  obtain ⟨hstage, hok⟩ := (h.stages i r hi).callHandle (h.reachable r hr) hk hp
  have hsus := WhenAllPc.suspended_of_stage hstage
  refine ⟨hsus, hok, ?_⟩
  have hawaits : (s.setState r p).awaits r = some i := by
    simp only [awaits, setState, hsus, hi, if_true]
  simp only [callHandle, hawaits]
  rfl

theorem Ok.input (h : s.Ok) (hr : r ∈ s.collection) (hm : m.ofProducer = true)
    (hp : (s.states r).step m = some p) :
    ((s.setState r p).afterInput r (s.states r).producer m).Ok := by
  obtain ⟨i, hi⟩ := List.mem_iff_getElem?.1 hr
  have hreach : Protocol.Reachable p := (h.reachable r hr).next trivial hp
  have houtcome := outcome_afterInput (h.outcomes r hr) hm hp
  by_cases hhandle : ∃ k, m = .producer ∧ (s.states r).producer = .callHandle k
  · obtain ⟨k, rfl, hk⟩ := hhandle
    obtain ⟨hsus, hok, hcall⟩ := h.suspended_of_callHandle hi hk hp
    rw [hk] at houtcome ⊢
    change ((s.setState r p).callHandle r).Ok
    change p.state.producer = ((s.setState r p).callHandle r).outcomes r at houtcome
    rw [hcall] at houtcome ⊢
    refine h.update hi rfl rfl hreach houtcome (fun r' hr' => ⟨rfl, rfl, ?_⟩) ?_
      (fun j hj => ?_) trivial
    · exact update_of_ne hr' ..
    · change ((WhenAllPc.loop (i + 1) : WhenAllPc ι).stage i).Ok p (s.suspensions r)
        (Function.update s.resumptions r (s.resumptions r + 1) r)
      rw [WhenAllPc.stage_loop_succ, update_self]
      exact hok
    · rw [hsus, (WhenAllPc.stage_of_ne hj).2.1]
      exact (WhenAllPc.stage_of_ne hj).2.2
  · have hnot : m = .producer → ∀ k, (s.states r).producer ≠ .callHandle k :=
      fun hm' k hk => hhandle ⟨k, hm', hk⟩
    obtain ⟨outcomes, heq, hother⟩ := afterInput_of_not_callHandle (s.setState r p) hnot
    rw [heq] at houtcome ⊢
    exact h.update hi rfl rfl hreach houtcome (fun r' hr' => ⟨hother r' hr', rfl, rfl⟩)
      ((h.stages i r hi).input hm hp hnot) (fun _ _ => rfl) h.within

/-- **Every result stays at its stage.** -/
theorem Ok.step {m : WhenAllMove α ε} (h : s.Ok) (hs : s.step m = some t) : t.Ok := by
  cases step_cases hs with
  | begin hpc hi hp => exact h.begin hpc hi hp
  | @leave i hpc hi =>
    refine h.goto (fun j hj => ?_) trivial
    -- the loop ends behind the last result
    have hji : j < i := hj.trans_le (List.getElem?_eq_none_iff.1 hi)
    rw [hpc]
    simp [WhenAllPc.stage, hji]
  | await hpc hi hp => exact h.await hpc hi hp
  | post hpc =>
    refine h.goto (fun j _ => ?_) trivial
    rw [hpc]
    rfl
  | @hop interrupted hpc =>
    cases interrupted with
    | true => exact h.goto (fun j _ => by rw [hpc]; rfl) trivial
    | false => exact h.goto (fun j _ => by rw [hpc]; rfl) rfl
  | input hr hm hp => exact h.input hr hm hp

omit [DecidableEq ι] in
theorem ok_start {states : (r : ι) → Protocol (α r) ε} {collection : List ι}
    (h : Valid states collection) : (start states collection).Ok where
  nodup := h.1
  reachable := fun r hr => (h.2 r hr).1
  outcomes := fun _ _ => rfl
  stages := fun i r hi => by
    change ((WhenAllPc.loop 0 : WhenAllPc ι).stage i).Ok _ _ _
    rw [show (WhenAllPc.loop 0 : WhenAllPc ι).stage i = .untouched by simp [WhenAllPc.stage]]
    exact ⟨(h.2 r (List.mem_of_getElem? hi)).2, rfl, rfl⟩
  within := trivial

theorem ok_of_run {states : (r : ι) → Protocol (α r) ε} {collection : List ι}
    {moves : List (WhenAllMove α ε)} (h : Valid states collection)
    (hr : run WhenAll.step (start states collection) moves = some s) : s.Ok :=
  run_invariant Ok (fun _ _ _ hok hs => hok.step hs) (ok_start h) hr

theorem collection_step {m : WhenAllMove α ε} (hs : s.step m = some t) :
    t.collection = s.collection := by
  cases step_cases hs with
  | begin | leave | post | hop => rfl
  | await =>
    unfold afterAwait
    split <;> rfl
  | input =>
    unfold afterInput
    split
    · rfl
    · rfl
    · split
      · simp only [callHandle]
        split <;> rfl
      · rfl
    · rfl

/-! ### The loop ends -/

/-- How many steps `await` of the result at `i` takes at most. -/
def awaitSteps (s : WhenAll α ε) (i : ℕ) : ℕ :=
  s.collection[i]?.elim 0 fun r => (s.states r).consumer.awaitSteps

/-- How many steps of its own the coroutine takes at most. -/
def stepsLeft (s : WhenAll α ε) : ℕ := s.coroutine.stepsLeft s.collection.length s.awaitSteps

omit [DecidableEq ι] in
theorem awaitSteps_eq (hi : s.collection[i]? = some r) :
    s.awaitSteps i = (s.states r).consumer.awaitSteps := by
  rw [awaitSteps, hi]
  rfl

/-- A producer's step leaves `await` where it is. -/
theorem awaitSteps_setState (h : s.Ok) (hr : r ∈ s.collection) (hm : m.ofProducer = true)
    (hp : (s.states r).step m = some p)
    (hhandle : m = .producer → ∀ k, (s.states r).producer ≠ .callHandle k) (j : ℕ) :
    (s.setState r p).awaitSteps j = s.awaitSteps j := by
  obtain ⟨i, hi⟩ := List.mem_iff_getElem?.1 hr
  have hconsumer := Protocol.consumer_of_producer hm hp hhandle (h.stages i r hi).not_share
  cases hj : s.collection[j]? with
  | none =>
    rw [awaitSteps, awaitSteps, show (s.setState r p).collection[j]? = none from hj, hj]
    rfl
  | some r' =>
    rw [awaitSteps_eq hj, awaitSteps_eq (s := s.setState r p) hj]
    exact (Function.forall_update_iff s.states fun k q => q.consumer.awaitSteps =
      (s.states k).consumer.awaitSteps).2 ⟨by rw [hconsumer], fun _ _ => rfl⟩ r'

theorem stepsLeft_await (h : s.Ok) (hpc : s.coroutine = .awaiting i)
    (hi : s.collection[i]? = some r) (hp : (s.states r).consumerStep = some p) :
    ((s.setState r p).afterAwait i r p.consumer).stepsLeft < s.stepsLeft := by
  have hr : r ∈ s.collection := List.mem_of_getElem? hi
  have hstage := h.stages i r hi
  rw [hpc, WhenAllPc.stage_awaiting_self] at hstage
  obtain ⟨⟨pc, hc, hrun⟩, -⟩ := hstage
  have hpos : 0 < pc.stepsLeft := by
    cases pc with
    | suspended => cases hrun
    | _ => simp [AwaitPc.stepsLeft]
  have hbefore : s.stepsLeft = 5 * (s.collection.length - (i + 1)) + 2 + pc.stepsLeft := by
    rw [stepsLeft, hpc]
    simp only [WhenAllPc.stepsLeft]
    rw [awaitSteps_eq hi, hc]
    rfl
  rw [hbefore]
  rcases Protocol.await_cases (Protocol.inv_of_reachable (h.reachable r hr)) hc hp with
    ⟨hready, -⟩ | ⟨k, hk⟩ | ⟨pc', hpc', hrun', hlt⟩
  · rw [hready]
    change 5 * (s.collection.length - (i + 1)) + 2 < _
    omega
  · rw [hk]
    change 5 * (s.collection.length - (i + 1)) + 2 < _
    omega
  · have hafter : (s.setState r p).awaitSteps i = pc'.stepsLeft := by
      rw [awaitSteps_eq (s := s.setState r p) hi]
      change (Function.update s.states r p r).consumer.awaitSteps = _
      rw [update_self, hpc']
      rfl
    rw [hpc', afterAwait_of_running hrun', stepsLeft, show (s.setState r p).coroutine = _ from hpc]
    simp only [WhenAllPc.stepsLeft]
    rw [hafter]
    change 5 * (s.collection.length - (i + 1)) + 2 + _ < _
    omega

/-- The producers do not prolong the loop. -/
theorem stepsLeft_input (h : s.Ok) (hr : r ∈ s.collection) (hm : m.ofProducer = true)
    (hp : (s.states r).step m = some p) :
    ((s.setState r p).afterInput r (s.states r).producer m).stepsLeft ≤ s.stepsLeft := by
  by_cases hhandle : ∃ k, m = .producer ∧ (s.states r).producer = .callHandle k
  · obtain ⟨k, rfl, hk⟩ := hhandle
    obtain ⟨i, hi⟩ := List.mem_iff_getElem?.1 hr
    obtain ⟨hsus, -, hcall⟩ := h.suspended_of_callHandle hi hk hp
    rw [hk]
    change ((s.setState r p).callHandle r).stepsLeft ≤ _
    rw [hcall, stepsLeft, stepsLeft, hsus]
    exact le_rfl
  · have hnot : m = .producer → ∀ k, (s.states r).producer ≠ .callHandle k :=
      fun hm' k hk => hhandle ⟨k, hm', hk⟩
    have hawait : (s.setState r p).awaitSteps = s.awaitSteps :=
      funext fun j => awaitSteps_setState h hr hm hp hnot j
    obtain ⟨outcomes, heq, -⟩ := afterInput_of_not_callHandle (s.setState r p) hnot
    rw [heq]
    change s.coroutine.stepsLeft s.collection.length (s.setState r p).awaitSteps ≤ _
    rw [hawait]
    exact le_rfl

/-- Every step of the coroutine is one less to take. -/
theorem Ok.stepsLeft_step {m : WhenAllMove α ε} (h : s.Ok) (hs : s.step m = some t) :
    t.stepsLeft + (if m.ofCoroutine then 1 else 0) ≤ s.stepsLeft := by
  cases step_cases hs with
  | @begin i r p hpc hi hp =>
    have hstage := h.stages i r hi
    rw [hpc, WhenAllPc.stage_loop_self] at hstage
    have hlt : i < s.collection.length := (List.getElem?_eq_some_iff.1 hi).1
    have hload : ((s.setState r p).goto (.awaiting i)).awaitSteps i = 4 := by
      rw [awaitSteps_eq (s := (s.setState r p).goto (.awaiting i)) hi]
      change (Function.update s.states r p r).consumer.awaitSteps = _
      rw [update_self, (hstage.begin hp).2]
      rfl
    rw [stepsLeft, stepsLeft, hpc]
    change 5 * (s.collection.length - (i + 1)) + 2 + awaitSteps _ i + 1 ≤ _
    rw [hload]
    simp only [WhenAllPc.stepsLeft]
    omega
  | leave hpc =>
    rw [stepsLeft, stepsLeft, hpc]
    change 1 + 1 ≤ _
    simp only [WhenAllPc.stepsLeft]
    omega
  | await hpc hi hp => exact stepsLeft_await h hpc hi hp
  | post hpc =>
    rw [stepsLeft, stepsLeft, hpc]
    exact le_rfl
  | @hop interrupted hpc =>
    rw [stepsLeft, stepsLeft, hpc]
    cases interrupted <;> exact le_rfl
  | input hr hm hp => exact stepsLeft_input h hr hm hp

/-- Inside the loop, only a result whose producer has not completed stops the coroutine. -/
theorem Ok.progress (h : s.Ok) (hdone : ∀ r ∈ s.collection, (s.states r).producer = .done)
    (hloop : s.coroutine.inLoop = true) : ∃ t, s.step .coroutine = some t := by
  have hwithin := h.within
  cases hpc : s.coroutine with
  | loop i =>
    cases hi : s.collection[i]? with
    | none =>
      simp only [WhenAll.step, WhenAll.coroutineStep, hpc, hi]
      exact ⟨_, rfl⟩
    | some r =>
      have hstage := h.stages i r hi
      rw [hpc, WhenAllPc.stage_loop_self] at hstage
      obtain ⟨⟨last, hc⟩, -⟩ := hstage
      simp only [WhenAll.step, WhenAll.coroutineStep, hpc, hi, Protocol.call, hc, Option.map_some]
      exact ⟨_, rfl⟩
  | awaiting i =>
    rw [hpc] at hwithin
    have hi : s.collection[i]? = some s.collection[i] := List.getElem?_eq_getElem hwithin
    have hstage := h.stages i _ hi
    rw [hpc, WhenAllPc.stage_awaiting_self] at hstage
    obtain ⟨⟨pc, hc, hrun⟩, -⟩ := hstage
    obtain ⟨p, hp⟩ := Protocol.await_step hc hrun
    simp only [WhenAll.step, WhenAll.coroutineStep, hpc, hi, hp, Option.map_some]
    exact ⟨_, rfl⟩
  | suspended i =>
    rw [hpc] at hwithin
    have hi : s.collection[i]? = some s.collection[i] := List.getElem?_eq_getElem hwithin
    have hr : s.collection[i] ∈ s.collection := List.getElem_mem hwithin
    have hstage := h.stages i _ hi
    rw [hpc, WhenAllPc.stage_suspended_self] at hstage
    obtain ⟨⟨k, hk⟩, -⟩ := hstage
    -- a producer that has completed has called the handle
    have hdelivery := Protocol.delivery_of_reachable (h.reachable _ hr)
    exact absurd (hdone _ hr) (hdelivery.blocked (.coroutine k) (by rw [hk]; rfl))
  | _ =>
    rw [hpc] at hloop
    cases hloop

/-- The coroutine leaves the producers alone. -/
theorem producer_of_coroutine (hs : s.step .coroutine = some t) (r' : ι) :
    (t.states r').producer = (s.states r').producer := by
  have hset : ∀ {r : ι} {p : Protocol (α r) ε}, p.producer = (s.states r).producer →
      (Function.update s.states r p r').producer = (s.states r').producer := fun hp =>
    (Function.forall_update_iff s.states fun k q => q.producer = (s.states k).producer).2
      ⟨hp, fun _ _ => rfl⟩ r'
  cases step_cases hs with
  | begin _ _ hp => exact hset (Protocol.call_frame hp).1
  | leave | post => rfl
  | @await i r p _ _ hp =>
    have hstates : ((s.setState r p).afterAwait i r p.consumer).states =
        Function.update s.states r p := by
      unfold afterAwait
      split <;> rfl
    rw [hstates]
    exact hset (Protocol.consumerStep_effect hp).producer

/-- **The loop ends** once every producer has completed. -/
theorem Ok.terminates (h : s.Ok) (hdone : ∀ r ∈ s.collection, (s.states r).producer = .done) :
    ∃ k ≤ s.stepsLeft, ∃ t, run WhenAll.step s (List.replicate k .coroutine) = some t ∧
      t.coroutine.inLoop = false := by
  -- on the steps that the coroutine has left
  induction hk : s.stepsLeft using Nat.strong_induction_on generalizing s with
  | h _ ih =>
    cases hloop : s.coroutine.inLoop with
    | false => exact ⟨0, Nat.zero_le _, s, rfl, hloop⟩
    | true =>
      obtain ⟨t, hs⟩ := h.progress hdone hloop
      have hlt : t.stepsLeft + 1 ≤ s.stepsLeft := h.stepsLeft_step hs
      have hdone' : ∀ r ∈ t.collection, (t.states r).producer = .done := by
        intro r hr
        rw [collection_step hs] at hr
        rw [producer_of_coroutine hs, hdone r hr]
      obtain ⟨k, hle, u, hu, hout⟩ := ih t.stepsLeft (by omega) (h.step hs) hdone' rfl
      exact ⟨k + 1, by omega, u, run_cons_of_step hs hu, hout⟩

/-! ### `when_all` -/

/-- What `when_all` promises in every state of its coroutine. -/
structure InPlace (s : WhenAll α ε) (collection : List ι) : Prop where
  /-- The loop goes past a result only when it is done. -/
  passed : ∀ i r, collection[i]? = some r → s.coroutine.stage i = .passed →
    (s.states r).state.pcState = .producerDone
  /-- The coroutine is resumed once for each result that it was suspended on. -/
  resumed : ∀ i r, collection[i]? = some r → s.suspensions r ≤ 1 ∧
    (s.coroutine = .suspended i → s.suspensions r = 1 ∧ s.resumptions r = 0) ∧
    (s.coroutine ≠ .suspended i → s.resumptions r = s.suspensions r)
  /-- With every producer completed, the coroutine is not stopped and leaves the loop. -/
  terminates : (∀ r ∈ collection, (s.states r).producer = .done) →
    (s.coroutine.inLoop = true → ∃ t, s.step .coroutine = some t) ∧
    ∃ k ≤ 5 * collection.length + 2, ∃ t,
      run WhenAll.step s (List.replicate k .coroutine) = some t ∧ t.coroutine.inLoop = false
  /-- An executor that is not shut down makes it return the collection. -/
  resumes : s.coroutine = .posted → s.step (.executor false) = some (s.goto (.returned collection))
  /-- The results are returned as they came, done and not consumed, each with its own outcome. -/
  returned : ∀ c, s.coroutine = .returned c → c = collection ∧
    ∀ r ∈ c, (s.states r).state.pcState = .producerDone ∧
      (∃ last, (s.states r).consumer = .ready last) ∧
      (s.states r).state.producer = s.outcomes r ∧ s.outcomes r ≠ .idle

omit [DecidableEq ι] in
theorem Ok.pcState_of_passed (h : s.Ok) (hi : s.collection[i]? = some r)
    (hstage : s.coroutine.stage i = .passed) : (s.states r).state.pcState = .producerDone := by
  have hok := h.stages i r hi
  rw [hstage] at hok
  obtain ⟨⟨last, hc⟩, hpub, -⟩ := hok
  have hinv := Protocol.inv_of_reachable (h.reachable r (List.mem_of_getElem? hi))
  exact Protocol.pcState_of_published hinv hpub (by rw [hc]; rfl)

omit [DecidableEq ι] in
theorem Ok.resumed (h : s.Ok) (hi : s.collection[i]? = some r) : s.suspensions r ≤ 1 ∧
    (s.coroutine = .suspended i → s.suspensions r = 1 ∧ s.resumptions r = 0) ∧
    (s.coroutine ≠ .suspended i → s.resumptions r = s.suspensions r) := by
  have hok := h.stages i r hi
  cases hstage : s.coroutine.stage i with
  | untouched | awaiting =>
    rw [hstage] at hok
    obtain ⟨-, hsus, hres⟩ := hok
    refine ⟨by omega, fun hpc => ?_, fun _ => hres.trans hsus.symm⟩
    rw [hpc, WhenAllPc.stage_suspended_self] at hstage
    cases hstage
  | suspended =>
    rw [hstage] at hok
    obtain ⟨-, hsus, hres⟩ := hok
    exact ⟨hsus.le, fun _ => ⟨hsus, hres⟩,
      fun hpc => absurd (WhenAllPc.suspended_of_stage hstage) hpc⟩
  | passed =>
    rw [hstage] at hok
    obtain ⟨-, -, hcounts, hle⟩ := hok
    refine ⟨hle, fun hpc => ?_, fun _ => hcounts⟩
    rw [hpc, WhenAllPc.stage_suspended_self] at hstage
    cases hstage

omit [DecidableEq ι] in
theorem Ok.returned {c : List ι} (h : s.Ok) (hc : s.coroutine = .returned c) : c = s.collection ∧
    ∀ r ∈ c, (s.states r).state.pcState = .producerDone ∧
      (∃ last, (s.states r).consumer = .ready last) ∧
      (s.states r).state.producer = s.outcomes r ∧ s.outcomes r ≠ .idle := by
  have hwithin := h.within
  rw [hc] at hwithin
  refine ⟨hwithin, fun r hr => ?_⟩
  rw [show c = s.collection from hwithin] at hr
  obtain ⟨i, hi⟩ := List.mem_iff_getElem?.1 hr
  have hstage : s.coroutine.stage i = .passed := by
    rw [hc]
    rfl
  have hok := h.stages i r hi
  rw [hstage] at hok
  have hbuilt : (s.states r).producer ≠ .building := by
    intro hb
    have hpub := hok.2.1
    rw [hb] at hpub
    cases hpub
  refine ⟨h.pcState_of_passed hi hstage, hok.1, h.outcomes r hr, ?_⟩
  rw [← h.outcomes r hr]
  exact (Protocol.inv_of_reachable (h.reachable r hr)).built hbuilt

/-- **`when_all` completes after all inputs and returns them in place.**  A call with an empty
result or a null executor throws and leaves the results alone.  Any other call moves the results
into its coroutine, and in every interleaving with their producers, whatever these produce: the
coroutine takes a bounded number of steps; it goes past a result only when that is done; it is
resumed once for each result that it was suspended on; it is not stopped once every producer has
completed; and it returns the results it was given, each at its own position, done, not consumed and
with the outcome of its own producer. -/
theorem completes_in_place {χ : Type} (resumeExecutor : Option χ) (results : List (Option ι))
    (states : (r : ι) → Protocol (α r) ε) :
    (resumeExecutor = none ∨ none ∈ results →
      ∃ e, whenAll resumeExecutor results = (.error e, results)) ∧
    (resumeExecutor = none → ∃ e, whenAllNone resumeExecutor = .error e) ∧
    (resumeExecutor ≠ none → none ∉ results → ∃ collection,
      (whenAll resumeExecutor results).1 = .ok collection ∧ collection.map some = results ∧
      (Valid states collection → ∀ moves s,
        run WhenAll.step (start states collection) moves = some s →
        moves.countP WhenAllMove.ofCoroutine ≤ 5 * collection.length + 2 ∧
        s.InPlace collection)) := by
  refine ⟨whenAll_throws, fun hnull => ?_, fun hexecutor hresults => ?_⟩
  · rw [hnull]
    exact ⟨_, rfl⟩
  obtain ⟨collection, hcall, hmap⟩ := whenAll_moves hexecutor hresults
  refine ⟨collection, by rw [hcall], hmap.symm, fun hvalid moves s hr => ?_⟩
  have hok := ok_of_run hvalid hr
  have hcollection : s.collection = collection :=
    run_invariant (fun u : WhenAll α ε => u.collection = collection)
      (fun _ _ _ hu hs => (collection_step hs).trans hu) rfl hr
  have hcount := run_countP_add_le Ok stepsLeft WhenAllMove.ofCoroutine
    (fun _ _ _ h hs => ⟨h.step hs, h.stepsLeft_step hs⟩) (ok_start hvalid) hr
  have hbound : (start states collection).stepsLeft = 5 * collection.length + 2 := rfl
  rw [hbound] at hcount
  subst hcollection
  refine ⟨by omega, fun i r hi => hok.pcState_of_passed hi, fun i r hi => hok.resumed hi,
    fun hdone => ⟨hok.progress hdone, ?_⟩, fun hposted => ?_, fun c hc => hok.returned hc⟩
  · obtain ⟨k, hk, t, ht, hout⟩ := hok.terminates hdone
    exact ⟨k, by omega, t, ht, hout⟩
  · simp only [WhenAll.step, executorStep, hposted]
    rfl

/-- The second result is done before the coroutine starts; the first suspends it and ends with an
exception. -/
theorem completes_in_place_of_exception :
    ∃ s : WhenAll (fun _ : Bool => ℕ) ℕ, s.coroutine = .returned [true, false] ∧
      s.outcomes true = .exception 3 ∧ s.suspensions true = 1 ∧ s.resumptions true = 1 ∧
      s.suspensions false = 0 ∧ (s.states true).state.pcState = .producerDone ∧
      (s.states true).state.producer = .exception 3 := by
  let schedule : List (WhenAllMove (fun _ : Bool => ℕ) ℕ) :=
    [.input false (.setResult 5), .input false (.completeProducer none), .input false .producer,
      .coroutine, .coroutine, .coroutine, .coroutine,
      .input true (.setException 3), .input true (.completeProducer none), .input true .producer,
      .input true .producer, .input true .producer, .input true .producer,
      .coroutine, .coroutine, .coroutine, .coroutine, .executor false]
  have hrun : (run WhenAll.step (start (fun _ => .initial) [true, false]) schedule).any
      fun s => decide (s.coroutine = .returned [true, false] ∧ s.outcomes true = .exception 3 ∧
        s.suspensions true = 1 ∧ s.suspensions false = 0) := by decide +kernel
  obtain ⟨s, hs, hp⟩ := (Option.any_eq_true _ _).1 hrun
  obtain ⟨hpc, hout, hsus, hsus'⟩ := of_decide_eq_true hp
  have hvalid : Valid (fun _ : Bool => (Protocol.initial : Protocol ℕ ℕ)) [true, false] :=
    ⟨by decide, fun _ _ => ⟨.start rfl, _, rfl⟩⟩
  obtain ⟨-, -, hmain⟩ := completes_in_place (some ()) [some true, some false]
    (fun _ : Bool => (Protocol.initial : Protocol ℕ ℕ))
  obtain ⟨collection, -, hmap, hmain⟩ := hmain (by decide) (by decide)
  obtain rfl : collection = [true, false] := List.map_injective_iff.2 (Option.some_injective _) hmap
  obtain ⟨-, hplace⟩ := hmain hvalid schedule s hs
  have hreturned := (hplace.returned _ hpc).2 true (by decide)
  have hresumed := (hplace.resumed 0 true rfl).2.2 (by rw [hpc]; decide)
  exact ⟨s, hpc, hout, hsus, hresumed.trans hsus, hsus', hreturned.1, hreturned.2.2.1.trans hout⟩

end WhenAll

end Concurrencpp
