import Concurrencpp.Results.WakeUp

/-!
# The status of a shared result, seen from its source

`on_result_finished` copies the status of the `result_state` into `m_status` of the shared state.
It is called from three places: by `share`, when its first load or its compare-exchange finds the
result finished, and by the producer, when it finds the shared state registered.

* `Finished`: what holds once the status has been copied.  The source is finished and stays so, and
  none of the three places is ahead any more.
* `SharedOk`: the status is idle until then, and a shared state that lives is either finished or
  registered, so that the producer will find it.
-/

namespace Concurrencpp
namespace Protocol

variable {α ε : Type} {s t : Protocol α ε}

/-- `on_result_finished` has run on a finished source, and will not run again. -/
structure Finished (s : Protocol α ε) : Prop where
  after : AfterShare s.consumer
  exchange : s.consumer ≠ .complete .exchange
  done : s.state.pcState = .producerDone
  status : s.sharedStatus = s.state.producer.status
  once : (∃ p, .sharedState p ∈ s.woken) ∨ ∀ p, s.registered ≠ some (.sharedState p)

/-- The shared status is not idle only once `on_result_finished` has run, and a shared state that
lives has either been finished or is registered. -/
structure SharedOk (s : Protocol α ε) : Prop where
  finished : s.sharedStatus ≠ .idle → Finished s
  sharing : s.consumer = .share .sharing →
    s.sharedStatus ≠ .idle ∨ ∃ p, s.registered = some (.sharedState p)

theorem sharedOk_initial : SharedOk (initial : Protocol α ε) :=
  ⟨fun h => absurd rfl h, nofun⟩

/-- The status of a finished result is not idle. -/
theorem Inv.status_of_done (h : Inv s) (hd : Done s.producer.published s.state.pcState) :
    s.state.status = s.state.producer.status ∧ s.state.producer.status ≠ .idle := by
  refine ⟨by rw [ResultState.status, if_neg (by rw [hd.2]; decide)], fun hidle => ?_⟩
  refine h.built (fun hb => ?_) ((s.state.producer.status_eq_idle_iff).1 hidle)
  have hp := hd.1
  rw [hb] at hp
  cases hp

/-! ### The consumer -/

/-- The destructor of a finished shared state. -/
theorem Finished.consumerStep (hf : Finished s) (hs : s.consumerStep = some t) : Finished t := by
  obtain ⟨hafter, hexchange, hdone, hstatus, honce⟩ := hf
  cases hc : s.consumer with
  | share pc =>
    rw [hc] at hafter
    cases pc with
    | sharing | dropped =>
      simp only [Protocol.consumerStep, hc] at hs
      cases hs
    | _ => exact hafter.elim
  | rewind pc k =>
    rw [hc] at hafter
    cases k with
    | ret => exact hafter.elim
    | complete =>
      simp only [Protocol.consumerStep, hc] at hs
      cases pc with
      | load | cas =>
        simp only [rewindStep, hdone] at hs
        cases hs
        exact ⟨trivial, by simp [AfterRewind.next], hdone, hstatus, honce⟩
      | assertDone | clear =>
        cases hs
        exact ⟨trivial, by simp [AfterRewind.next], hdone, hstatus, honce⟩
  | complete pc =>
    simp only [Protocol.consumerStep, hc] at hs
    cases pc with
    | load =>
      simp only [completeStep, hdone] at hs
      cases hs
      exact ⟨trivial, by simp, hdone, hstatus, honce⟩
    | exchange => exact absurd hc hexchange
    | delete =>
      cases hs
      exact ⟨trivial, by simp, hdone, hstatus, honce⟩
  | finished =>
    simp only [Protocol.consumerStep, hc] at hs
    cases hs
  | _ => rw [hc] at hafter; exact hafter.elim

theorem sharedOk_consumerStep (h : Inv s) (hd : SharedOk s) (hs : s.consumerStep = some t) :
    SharedOk t := by
  have heff := consumerStep_registration hs
  by_cases hfin : s.consumer = .share .finish
  · -- `share` itself finishes
    have hdone : Done s.producer.published s.state.pcState := by
      have hok := h.consumer
      rw [hfin] at hok
      exact hok
    obtain ⟨hst, hne⟩ := h.status_of_done hdone
    simp only [consumerStep, hfin, shareStep] at hs
    cases hs
    refine ⟨fun _ => ⟨trivial, by simp, hdone.2, hst, .inr fun p hp => ?_⟩, fun _ => .inl ?_⟩
    · have := h.shared p hp
      rw [hfin] at this
      exact this
    · exact fun hidle => hne (hst.symm.trans hidle)
  · have heq : t.sharedStatus = s.sharedStatus := heff.status.resolve_right fun hr => hfin hr.1
    refine ⟨fun hne => ?_, fun hc => .inr ?_⟩
    · exact (hd.finished (heq ▸ hne)).consumerStep hs
    · exact (heff.sharing hc).resolve_left hfin

/-! ### The producer -/

theorem Finished.producerStep (h : Inv s) (hd : Delivery s) (hf : Finished s)
    (hpub : s.producer.published = true) (hs : s.producerStep = some t) : Finished t := by
  have heff := producerStep_effect hs
  have hne : s.producer ≠ .exchange := fun hpc => by rw [hpc] at hpub; cases hpub
  -- the producer does not finish a second time
  have heq : t.sharedStatus = s.sharedStatus := by
    refine heff.status.resolve_right ?_
    rintro ⟨p, hpc, -, -⟩
    have hpr := h.producer
    have hw := hd.woken
    rw [hpc] at hpr hw
    rcases hf.once with ⟨q, hq⟩ | hreg
    · rw [show s.woken = [] from hw] at hq
      cases hq
    · exact hreg p hpr.1
  have hcons : AfterShare t.consumer ∧ t.consumer ≠ .complete .exchange := by
    rcases heff.consumer with hc | ⟨-, -, hc⟩ | ⟨i, k, -, hc, -⟩
    · rw [hc]
      exact ⟨hf.after, hf.exchange⟩
    · rw [hc]
      exact ⟨trivial, nofun⟩
    · have := hf.after
      rw [hc] at this
      exact this.elim
  refine ⟨hcons.1, hcons.2, by rw [heff.state hne]; exact hf.done, ?_, ?_⟩
  · rw [heq, heff.state hne]
    exact hf.status
  · rw [heff.registered]
    exact hf.once.imp_left fun ⟨p, hp⟩ => ⟨p, heff.woken _ hp⟩

theorem sharedOk_producerStep (h : Inv s) (hd : Delivery s) (hk : SharedOk s)
    (hs : s.producerStep = some t) : SharedOk t := by
  have heff := producerStep_effect hs
  -- the producer finishes
  have hfirst : ∀ p, s.producer = .onResultFinished p → t.sharedStatus = s.state.status →
      .sharedState p ∈ t.woken → Finished t ∧ t.sharedStatus ≠ .idle := fun p hpc hst hmem => by
    have hpr := h.producer
    rw [hpc] at hpr
    have hdone := done_of_sharing h (by rw [hpc]; rfl) hpr.2
    obtain ⟨heq, hne⟩ := h.status_of_done hdone
    have hstate := heff.state (by rw [hpc]; simp)
    have hcons : t.consumer = s.consumer := by
      simp only [producerStep, hpc] at hs
      cases hs
      rfl
    refine ⟨⟨?_, ?_, by rw [hstate]; exact hdone.2, by rw [hst, heq, hstate], .inl ⟨p, hmem⟩⟩, ?_⟩
    · rw [hcons]
      rcases hpr.2 with hc | hc <;> rw [hc] <;> trivial
    · rw [hcons]
      rcases hpr.2 with hc | hc <;> rw [hc] <;> simp
    · rw [hst, heq]
      exact hne
  rcases heff.status with heq | ⟨p, hpc, hst, hmem⟩
  · refine ⟨fun hne => ?_, fun hsh => ?_⟩
    · have hne' : s.sharedStatus ≠ .idle := heq ▸ hne
      exact (hk.finished hne').producerStep h hd (h.finished hne') hs
    · rw [heq, heff.registered]
      refine hk.sharing ?_
      rcases heff.consumer with hc | ⟨-, -, hc⟩ | ⟨i, k, -, -, hc⟩
      · exact hc.symm.trans hsh
      · cases hc.symm.trans hsh
      · cases k <;> cases hc.symm.trans hsh
  · obtain ⟨hfin, hne⟩ := hfirst p hpc hst hmem
    exact ⟨fun _ => hfin, fun _ => .inl hne⟩

/-! ### Every run -/

theorem sharedOk_call {op : Op} (hk : SharedOk s) (hs : s.call op = some t) : SharedOk t := by
  unfold call at hs
  split at hs
  case h_1 hc =>
    cases hs
    refine ⟨fun hne => ?_, fun hsh => ?_⟩
    · have hafter := (hk.finished hne).after
      rw [hc] at hafter
      exact hafter.elim
    · change Op.entry _ = _ at hsh
      unfold Op.entry at hsh
      split at hsh <;> cases hsh
  case h_2 hc =>
    split_ifs at hs
    cases hs
    exact ⟨fun hne => { hk.finished hne with }, hk.sharing⟩
  case h_3 hc =>
    cases hs
    refine ⟨fun hne => ?_, fun hsh => ?_⟩
    · have hf := hk.finished hne
      refine ⟨?_, ?_, hf.done, hf.status, hf.once⟩
      · show AfterShare (if _ then _ else _)
        split_ifs <;> trivial
      · show (if _ then _ else _) ≠ _
        split_ifs <;> nofun
    · change (if _ then _ else _) = _ at hsh
      split_ifs at hsh
      cases hsh
  case h_4 => cases hs

theorem sharedOk_step {m : Move α ε} (h : Inv s) (hd : Delivery s) (hk : SharedOk s)
    (hs : s.step m = some t) : SharedOk t := by
  -- a producer that has not published: nothing is finished
  have hearly : s.producer.published = false → t.sharedStatus = s.sharedStatus →
      t.consumer = s.consumer → t.registered = s.registered → SharedOk t := fun hp heq hc hreg => by
    refine ⟨fun hne => ?_, fun hsh => ?_⟩
    · cases hp.symm.trans (h.finished (heq ▸ hne))
    · rw [heq, hreg]
      exact hk.sharing (hc ▸ hsh)
  cases m with
  | call => exact sharedOk_call hk hs
  | consumer => exact sharedOk_consumerStep h hk hs
  | timeout =>
    obtain ⟨i, hc, rfl⟩ := timeout_eq_some hs
    refine ⟨fun hne => ?_, by simp⟩
    have hafter := (hk.finished hne).after
    rw [hc] at hafter
    exact hafter.elim
  | setResult | setException =>
    obtain ⟨hpc, rfl⟩ := build_eq_some hs
    exact hearly (by rw [hpc]; rfl) rfl rfl rfl
  | completeProducer =>
    obtain ⟨hpc, rfl⟩ := completeProducer_eq_some hs
    exact hearly (by rw [hpc.1]; rfl) rfl rfl rfl
  | producer => exact sharedOk_producerStep h hd hk hs

theorem sharedOk_of_reachable (h : Reachable s) : SharedOk s := by
  refine Interleaving.Reach.invariant_of_reach ?_ ?_ h
  · rintro _ rfl
    exact sharedOk_initial
  · exact fun _ _ _ hr hk _ hs =>
      sharedOk_step (inv_of_reachable hr) (delivery_of_reachable hr) hk hs

end Protocol
end Concurrencpp
