import Concurrencpp.Results.SharedResult
import Concurrencpp.Results.SharedAwaitersOrder
import Concurrencpp.Results.SharedStatus

/-!
# The invariant of a shared result

The parts of a `SharedResult` are runs of their own: the source of `Protocol`, the awaiters of
`SharedAwaiters` (`Inv.result`, `Inv.awaiters`), so what holds in every run of these holds of them
here.  What the composition adds:

* `on_result_finished` has been called exactly if `m_status` is not idle, by one caller, which
  leaves it when it is done;
* the holders that exist keep the shared state alive;
* a holder calls `get_ref` only behind a status that is not idle, and all that holders have ever
  observed is idle or the present status.

Here it is kept by the constructor, by the producer and by the destructor of the shared state.
-/

namespace Concurrencpp

/-! ### The two places that finish -/

namespace Protocol

variable {α ε : Type} {s t : Protocol α ε}

/-- `share` calls `on_result_finished` on an idle shared state. -/
theorem finish_of_share (h : Reachable s) (hc : s.consumer = .share .finish)
    (hs : s.consumerStep = some t) :
    s.sharedStatus = .idle ∧ t.sharedStatus ≠ .idle ∧ t.consumer = .share .sharing := by
  have hi := inv_of_reachable h
  have hdone : Done s.producer.published s.state.pcState := by
    have hok := hi.consumer
    rw [hc] at hok
    exact hok
  obtain ⟨heq, hne⟩ := hi.status_of_done hdone
  simp only [consumerStep, hc, shareStep] at hs
  cases hs
  refine ⟨?_, fun hidle => hne (heq.symm.trans hidle), rfl⟩
  by_contra hfin
  have hafter := ((sharedOk_of_reachable h).finished hfin).after
  rw [hc] at hafter
  exact hafter

/-- So does the producer. -/
theorem finish_of_producer {p : ℕ} (h : Reachable s) (hp : s.producer = .onResultFinished p)
    (hs : s.producerStep = some t) :
    s.sharedStatus = .idle ∧ t.sharedStatus ≠ .idle ∧ t.consumer = s.consumer ∧
      t.producer = .dropShared := by
  have hi := inv_of_reachable h
  have hpr := hi.producer
  have hw := (delivery_of_reachable h).woken
  rw [hp] at hpr hw
  obtain ⟨heq, hne⟩ := hi.status_of_done (done_of_sharing hi (by rw [hp]; rfl) hpr.2)
  simp only [producerStep, hp] at hs
  cases hs
  refine ⟨?_, fun hidle => hne (heq.symm.trans hidle), rfl, rfl⟩
  by_contra hfin
  rcases ((sharedOk_of_reachable h).finished hfin).once with ⟨q, hq⟩ | hreg
  · rw [show s.woken = [] from hw] at hq
    cases hq
  · exact hreg p hpr.1

/-- Behind `share`, the consumer does not come back to it. -/
theorem afterShare_consumerStep (h : AfterShare s.consumer) (hs : s.consumerStep = some t) :
    AfterShare t.consumer := by
  cases hc : s.consumer with
  | share pc =>
    rw [hc] at h
    cases pc with
    | sharing | dropped => simp [consumerStep, hc, shareStep] at hs
    | _ => exact h.elim
  | rewind _ k =>
    rw [hc] at h
    cases k with
    | ret => exact h.elim
    | complete =>
      simp only [consumerStep, hc, rewindStep] at hs
      split at hs
      · split_ifs at hs <;> cases hs <;> trivial
      · split_ifs at hs <;> cases hs <;> trivial
      · cases hs; trivial
      · cases hs; trivial
  | complete =>
    simp only [consumerStep, hc, completeStep] at hs
    split at hs
    · split_ifs at hs <;> cases hs <;> trivial
    · split_ifs at hs <;> cases hs <;> trivial
    · cases hs; trivial
  | finished => simp [consumerStep, hc] at hs
  | _ => rw [hc] at h; exact h.elim

theorem afterShare_producerStep (h : AfterShare s.consumer) (hs : s.producerStep = some t) :
    AfterShare t.consumer := by
  rcases (producerStep_effect hs).consumer with hc | ⟨-, -, hc⟩ | ⟨i, k, -, hc, -⟩
  · rw [hc]
    exact h
  · rw [hc]
    trivial
  · rw [hc] at h
    exact h.elim

end Protocol

namespace SharedAwaiters

variable {s t : SharedAwaiters}

/-- Only the call of `on_result_finished` begins it, and what is done stays done. -/
theorem step_finish {m : AwaiterMove} (h : Reachable s) (hm : m ≠ .start) (hs : s.step m = some t) :
    (t.finish = .before ↔ s.finish = .before) ∧ (s.finish = .done → t.finish = .done) := by
  have hi := inv_of_reachable h
  cases m with
  | create =>
    simp only [step, create] at hs
    split_ifs at hs
    cases hs
    exact ⟨Iff.rfl, id⟩
  | awaitable n =>
    simp only [step, awaitableStep] at hs
    cases hn : s.awaitables n with
    | unborn | suspended | destroyed => simp [hn] at hs
    | load =>
      simp only [hn] at hs
      split at hs <;> cases hs <;> exact ⟨Iff.rfl, id⟩
    | setNext =>
      obtain ⟨next, hc⟩ := (hi.awaitable n).owner (by rw [hn]; rfl)
      simp only [hn, hc] at hs
      cases hs
      exact ⟨Iff.rfl, id⟩
    | cas =>
      simp only [hn] at hs
      split_ifs at hs <;> cases hs <;> exact ⟨Iff.rfl, id⟩
    | returned =>
      simp only [hn] at hs
      cases hs
      exact ⟨Iff.rfl, id⟩
  | spurious =>
    simp only [step, spurious] at hs
    split at hs <;> cases hs
    exact ⟨Iff.rfl, id⟩
  | start => exact absurd rfl hm
  | finish =>
    simp only [step, finishStep] at hs
    have hne : t.finish ≠ .before := by
      repeat' split at hs
      all_goals cases hs
      all_goals simp [crash]
    refine ⟨⟨fun hb => absurd hb hne, fun hb => ?_⟩, fun hd => ?_⟩
    · simp [hb] at hs
    · simp [hd] at hs

/-- The ready constant is stored only once `on_result_finished` has been called. -/
theorem Inv.finish_of_ready (h : Inv s) (hready : s.awaiters = .ready) : s.finish ≠ .before := by
  intro hf
  have hlinks := h.links
  rw [hf] at hlinks
  obtain ⟨-, p, hp, -⟩ := hlinks
  cases hready.symm.trans hp

end SharedAwaiters

namespace SharedResult

variable {α ε : Type} {s t : SharedResult α ε} {k : ℕ}

/-- The invariant of the composition. -/
structure Inv (s : SharedResult α ε) : Prop where
  result : Protocol.Reachable s.result
  awaiters : SharedAwaiters.Reachable s.awaiters
  started : s.awaiters.finish = .before ↔ s.status = .idle
  runner : s.runner = none ↔ s.status = .idle
  byProducer : s.runner = some .producer →
    s.result.producer = .dropShared ∨ s.awaiters.finish = .done
  byConstructor : s.runner = some .constructor → s.constructed = true → s.awaiters.finish = .done
  finishes : s.finishes = if s.status = .idle then 0 else 1
  owners : ∀ k, s.holders k ≠ .absent ↔ k ∈ s.owners
  constructed : s.constructed = true → Protocol.AfterShare s.result.consumer
  alive : s.owners ≠ ∅ → s.constructed = true ∧ s.result.consumer = .share .sharing
  get : ∀ k, s.holders k = .get → s.status ≠ .idle
  seen : ∀ o ∈ s.observed, o ≠ .idle → o = s.status
  agree : s.observed.Pairwise fun a b => a ≠ .idle → b = a

variable {r : Protocol α ε}

theorem inv_start {last : Option Ret} (hr : Protocol.Reachable r) (hc : r.consumer = .ready last) :
    Inv (start r) := by
  have hidle : r.sharedStatus = .idle := by
    by_contra hne
    have hafter := ((Protocol.sharedOk_of_reachable hr).finished hne).after
    rw [hc] at hafter
    exact hafter
  refine ⟨hr, .start rfl, ⟨fun _ => hidle, fun _ => rfl⟩, ⟨fun _ => hidle, fun _ => rfl⟩, nofun,
    nofun, ?_, fun k => ⟨fun h => absurd rfl h, fun h => absurd h (Finset.notMem_empty k)⟩, nofun,
    fun h => absurd rfl h, nofun, fun o ho => absurd ho List.not_mem_nil, List.Pairwise.nil⟩
  show 0 = if r.sharedStatus = .idle then 0 else 1
  rw [if_pos hidle]

/-! ### Steps of one part -/

/-- A holder that exists moves on. -/
theorem Inv.setHolder {pc : HolderPc} (h : Inv s) (hk : s.holders k ≠ .absent) (hpc : pc ≠ .absent)
    (hget : pc = .get → s.status ≠ .idle) : Inv (s.setHolder k pc) :=
  { h with
    owners := (Function.forall_update_iff _ fun j (pc : HolderPc) => pc ≠ .absent ↔ j ∈ s.owners).2
      ⟨⟨fun _ => (h.owners k).1 hk, fun _ => hpc⟩, fun j _ => h.owners j⟩
    get := (Function.forall_update_iff _ fun _ (pc : HolderPc) => pc = .get → s.status ≠ .idle).2
      ⟨hget, fun j _ => h.get j⟩ }

/-- What a load of `m_status` reads agrees with all that has been read before. -/
theorem Inv.observe (h : Inv s) : Inv s.observe :=
  { h with
    seen := fun o ho hne => by
      rcases List.mem_append.1 ho with ho | ho
      · exact h.seen o ho hne
      · exact List.mem_singleton.1 ho
    agree := List.pairwise_append.2 ⟨h.agree, List.pairwise_singleton _ _, fun a ha b hb hne => by
      rw [List.mem_singleton.1 hb]
      exact (h.seen a ha hne).symm⟩ }

/-- A step of the awaiters that does not call `on_result_finished`. -/
theorem Inv.setAwaiters {a : SharedAwaiters} {m : AwaiterMove} (h : Inv s) (hm : m ≠ .start)
    (hs : s.awaiters.step m = some a) (semaphore fresh : ℕ) :
    Inv { s with awaiters := a, semaphore := semaphore, fresh := fresh } := by
  obtain ⟨hbefore, hdone⟩ := SharedAwaiters.step_finish h.awaiters hm hs
  exact { h with
    awaiters := h.awaiters.next trivial hs
    started := hbefore.trans h.started
    byProducer := fun hr => (h.byProducer hr).imp_right hdone
    byConstructor := fun hr hc => hdone (h.byConstructor hr hc) }

/-- A step of the source that does not call `on_result_finished`. -/
theorem Inv.setResult {m : Move α ε} (h : Inv s) (hs : s.result.step m = some r)
    (hstatus : r.sharedStatus = s.result.sharedStatus)
    (hafter : Protocol.AfterShare s.result.consumer → Protocol.AfterShare r.consumer)
    (halive : s.owners ≠ ∅ → r.consumer = .share .sharing)
    (hdrop : s.result.producer = .dropShared →
      r.producer = .dropShared ∨ s.awaiters.finish = .done) : Inv (s.setResult r) := by
  have heq : (s.setResult r).status = s.status := hstatus
  exact { h with
    result := h.result.next trivial hs
    started := by rw [heq]; exact h.started
    runner := by rw [heq]; exact h.runner
    byProducer := fun hr => (h.byProducer hr).elim hdrop .inr
    finishes := by rw [heq]; exact h.finishes
    constructed := fun hc => hafter (h.constructed hc)
    alive := fun ho => ⟨(h.alive ho).1, halive ho⟩
    get := fun k hk => by rw [heq]; exact h.get k hk
    seen := fun o ho hne => by rw [heq]; exact h.seen o ho hne }

/-- `on_result_finished` is called. -/
theorem Inv.startFinish {m : Move α ε} {runner : FinishRunner} (h : Inv s)
    (hs : s.result.step m = some r) (hidle : s.result.sharedStatus = .idle)
    (hne : r.sharedStatus ≠ .idle)
    (hafter : Protocol.AfterShare s.result.consumer → Protocol.AfterShare r.consumer)
    (halive : s.owners ≠ ∅ → r.consumer = .share .sharing)
    (hproducer : runner = .producer → r.producer = .dropShared)
    (hconstructor : runner = .constructor → s.constructed = false) :
    Inv (s.startFinish runner r) := by
  have hbefore : s.awaiters.finish = .before := h.started.2 hidle
  have hstart : s.awaiters.step .start = some { s.awaiters with finish := .notify } := by
    simp [SharedAwaiters.step, hbefore]
  have ha : (s.startFinish runner r).awaiters = { s.awaiters with finish := .notify } := by
    simp [SharedResult.startFinish, hstart]
  have hzero : s.finishes = 0 := h.finishes.trans (if_pos hidle)
  -- nobody has observed anything but idle
  have hseen : ∀ o ∈ s.observed, o = .idle := fun o ho => by
    by_contra hoi
    exact hoi ((h.seen o ho hoi).trans hidle)
  refine ⟨h.result.next trivial hs, ?_, ?_, ?_, ?_, ?_, ?_, h.owners,
    fun hc => hafter (h.constructed hc), fun ho => ⟨(h.alive ho).1, halive ho⟩,
    fun k hk _ => h.get k hk hidle, fun o ho hoi => absurd (hseen o ho) hoi, h.agree⟩
  · rw [ha]
    exact h.awaiters.next trivial hstart
  · rw [ha]
    exact ⟨by simp, fun hi => absurd hi hne⟩
  · exact ⟨by simp [SharedResult.startFinish], fun hi => absurd hi hne⟩
  · rintro ⟨⟩
    exact .inl (hproducer rfl)
  · rintro ⟨⟩ hc
    cases (hconstructor rfl).symm.trans hc
  · show s.finishes + 1 = if r.sharedStatus = .idle then 0 else 1
    rw [if_neg hne, hzero]

/-! ### The constructor, the producer and the destructor -/

/-- While the source's consumer is anywhere else than in the life of the shared state, there are no
holders. -/
theorem Inv.owners_eq_empty (h : Inv s) (hc : s.result.consumer ≠ .share .sharing) :
    s.owners = ∅ := by
  by_contra ho
  exact hc (h.alive ho).2

/-- A step of the source's consumer while there are no holders. -/
theorem Inv.consumerStep (h : Inv s) (hc : s.result.consumer ≠ .share .sharing)
    (hfin : s.result.consumer ≠ .share .finish) (hs : s.result.consumerStep = some r) :
    Inv (s.setResult r) := by
  have hstatus := (Protocol.consumerStep_registration hs).status.resolve_right fun hr => hfin hr.1
  refine h.setResult (m := .consumer) hs hstatus (fun ha => Protocol.afterShare_consumerStep ha hs)
    (fun ho => absurd (h.owners_eq_empty hc) ho) fun hp => ?_
  exact .inl ((Protocol.consumerStep_effect hs).producer.trans hp)

theorem inv_construct (h : Inv s) (hs : s.construct = some t) : Inv t := by
  unfold construct at hs
  split at hs
  case h_1 last hc =>
    obtain ⟨r, hr, rfl⟩ := Option.map_eq_some_iff.1 hs
    have hempty := h.owners_eq_empty (by rw [hc]; nofun)
    refine h.setResult (m := .call .share) hr ?_ (fun ha => ?_) (fun ho => absurd hempty ho)
      fun hp => .inl ?_
    · simp only [Protocol.call, hc] at hr
      cases hr
      rfl
    · rw [hc] at ha
      exact ha.elim
    · exact (Protocol.call_frame hr).1.trans hp
  case h_2 => cases hs

theorem inv_shareStep (h : Inv s) (hs : s.shareStep = some t) : Inv t := by
  unfold shareStep at hs
  split at hs
  case h_1 hc =>
    obtain ⟨r, hr, rfl⟩ := Option.map_eq_some_iff.1 hs
    obtain ⟨hidle, hne, -⟩ := Protocol.finish_of_share h.result hc hr
    have hempty := h.owners_eq_empty (by rw [hc]; nofun)
    refine h.startFinish (m := .consumer) hr hidle hne
      (fun ha => Protocol.afterShare_consumerStep ha hr) (fun ho => absurd hempty ho) nofun
      fun _ => ?_
    cases hcon : s.constructed with
    | false => rfl
    | true =>
      have hafter := h.constructed hcon
      rw [hc] at hafter
      exact hafter.elim
  case h_2 pc hfin hc =>
    obtain ⟨r, hr, rfl⟩ := Option.map_eq_some_iff.1 hs
    have hsharing : s.result.consumer ≠ .share .sharing := fun hsh => by
      simp [Protocol.consumerStep, hsh, Protocol.shareStep] at hr
    refine h.consumerStep hsharing (fun hf => hfin ?_) hr
    exact ConsumerPc.share.inj (hc.symm.trans hf)
  case h_3 => cases hs

theorem inv_finishConstruct (h : Inv s) (hs : s.finishConstruct = some t) : Inv t := by
  unfold finishConstruct at hs
  split_ifs at hs with hguard
  cases hs
  obtain ⟨hc, hcon, hrun⟩ := hguard
  have hempty : s.owners = ∅ := by
    by_contra ho
    cases hcon.symm.trans (h.alive ho).1
  refine { h with
    byConstructor := fun hr _ => hrun hr
    owners := (Function.forall_update_iff _
      fun j (pc : HolderPc) => pc ≠ .absent ↔ j ∈ ({0} : Finset ℕ)).2 ⟨by simp, fun j hj => ?_⟩
    constructed := fun _ => ?_
    alive := fun _ => ⟨rfl, hc⟩
    get := (Function.forall_update_iff _ fun _ (pc : HolderPc) => pc = .get → s.status ≠ .idle).2
      ⟨nofun, fun j _ => h.get j⟩ }
  · rw [h.owners j, hempty]
    simp [hj]
  · rw [show ({ s.setHolder 0 .ready with owners := {0}, constructed := true } :
      SharedResult α ε).result.consumer = _ from hc]
    trivial

/-- The producer outside `on_result_finished`. -/
theorem Inv.producerStep (h : Inv s) (hne : ∀ p, s.result.producer ≠ .onResultFinished p)
    (hs : s.result.producerStep = some r)
    (hdrop : s.result.producer = .dropShared → s.awaiters.finish = .done) :
    Inv (s.setResult r) := by
  have heff := Protocol.producerStep_effect hs
  have hst := heff.status.resolve_right fun ⟨p, hp, _⟩ => hne p hp
  refine h.setResult (m := .producer) hs hst (fun ha => Protocol.afterShare_producerStep ha hs)
    (fun ho => ?_) fun hp => .inr (hdrop hp)
  have hsharing := (h.alive ho).2
  rcases heff.consumer with hc | ⟨-, hc, -⟩ | ⟨i, k, -, hc, -⟩
  · exact hc.trans hsharing
  · cases hsharing.symm.trans hc
  · cases hsharing.symm.trans hc

theorem inv_producerStep (h : Inv s) (hs : s.producerStep = some t) : Inv t := by
  unfold producerStep at hs
  split at hs
  case h_1 p hp =>
    obtain ⟨r, hr, rfl⟩ := Option.map_eq_some_iff.1 hs
    obtain ⟨hidle, hne, hc, hdrop⟩ := Protocol.finish_of_producer h.result hp hr
    exact h.startFinish (m := .producer) hr hidle hne
      (fun ha => Protocol.afterShare_producerStep ha hr) (fun ho => hc.trans (h.alive ho).2)
      (fun _ => hdrop) nofun
  case h_2 hp =>
    split_ifs at hs with hdone
    obtain ⟨r, hr, rfl⟩ := Option.map_eq_some_iff.1 hs
    exact h.producerStep (by rw [hp]; nofun) hr fun _ => hdone
  case h_3 hne hdrop =>
    obtain ⟨r, hr, rfl⟩ := Option.map_eq_some_iff.1 hs
    exact h.producerStep hne hr fun hp => (hdrop hp).elim

theorem inv_build {outcome : ProducerContext α ε} {m : Move α ε} (h : Inv s)
    (hm : s.result.step m = s.result.build outcome)
    (hs : (s.result.build outcome).map s.setResult = some t) : Inv t := by
  obtain ⟨r, hr, rfl⟩ := Option.map_eq_some_iff.1 hs
  have hstep := hm.trans hr
  obtain ⟨hp, rfl⟩ := Protocol.build_eq_some hr
  exact h.setResult hstep rfl id (fun ho => (h.alive ho).2) fun hd => by cases hp.symm.trans hd

theorem inv_completeProducer {handle : Option CoroutineHandle} (h : Inv s)
    (hs : (s.result.completeProducer handle).map s.setResult = some t) : Inv t := by
  obtain ⟨r, hr, rfl⟩ := Option.map_eq_some_iff.1 hs
  have hstep : s.result.step (.completeProducer handle) = some r := hr
  obtain ⟨hp, rfl⟩ := Protocol.completeProducer_eq_some hr
  exact h.setResult hstep rfl id (fun ho => (h.alive ho).2) fun hd => by cases hp.1.symm.trans hd

theorem inv_destructorStep (h : Inv s) (hs : s.destructorStep = some t) : Inv t := by
  unfold destructorStep at hs
  split at hs
  case h_3 => cases hs
  all_goals
    rename_i hc
    obtain ⟨r, hr, rfl⟩ := Option.map_eq_some_iff.1 hs
    exact h.consumerStep (by rw [hc]; nofun) (by rw [hc]; nofun) hr

end SharedResult
end Concurrencpp
