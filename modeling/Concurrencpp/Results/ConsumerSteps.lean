import Concurrencpp.Results.Representation

/-!
# The consumer's operations preserve the representation invariant

One lemma for each function of the source: `wait`, `await`, `wait_for`, `when_any`,
`try_rewind_consumer`, `share`, `get` with `complete_joined_consumer`, and `complete_consumer`.  A
failed compare-exchange always means that the producer is done, which is what the `assert_done`
after it asserts; a successful one always comes before the producer's exchange.
-/

namespace Concurrencpp
namespace Protocol

variable {α ε : Type} {s t : Protocol α ε}

/-- The compare-exchange that publishes `w` fails only once the producer is done. -/
theorem Inv.compareExchange {c won lost : ConsumerPc} {w : Waiter} {st : PcState} (h : Inv s)
    (hpc : s.consumer = c)
    (hs : (if s.state.pcState = .idle then some ((s.register w st).goto won)
      else some (s.goto lost)) = some t)
    (hok : Prepared s.producer.published s.state.pcState s.state.consumer s.registered w.context)
    (hc : ¬ Parked c) (hc' : ¬ AfterShare c) (hshare : ∀ p, w = .sharedState p → AfterShare won)
    (hwon : ConsumerOk false st w.context (some w) won)
    (hlost : Done s.producer.published s.state.pcState →
      ConsumerOk s.producer.published s.state.pcState s.state.consumer s.registered lost) :
    Inv t := by
  obtain ⟨hst, hctx, -⟩ := hok
  split_ifs at hs with hi <;> cases hs
  · have hp := unpublished_of_eq hst (by decide) hi
    refine h.register hp hctx hshare ?_
    rw [hp, hctx]
    exact hwon
  · exact h.goto hpc hc (fun hshared => absurd hshared hc') (hlost (done_of_ne hst hi))

theorem inv_waitStep {k : AfterWait} {pc : WaitPc} (h : Inv s) (hpc : s.consumer = .wait pc k)
    (hs : s.waitStep k pc = some t) : Inv t := by
  have hok := h.consumer
  rw [hpc] at hok
  cases pc with
  | load =>
    simp only [waitStep] at hs
    split_ifs at hs with hd <;> cases hs
    · exact h.goto hpc id nofun (consumerOk_afterWait (done_of_eq hok.1 (by decide) hd) k nofun)
    · exact h.goto hpc id nofun (hok.prepared hd)
  | cas => exact h.compareExchange hpc hs hok id id nofun ⟨rfl, rfl⟩ id
  | loop =>
    simp only [waitStep] at hs
    split_ifs at hs with hd <;> cases hs
    · exact h.goto hpc id nofun (done_of_eq hok.1 (by decide) hd)
    · exact h.goto hpc id nofun hok
  | block =>
    simp only [waitStep] at hs
    split_ifs at hs with hw
    cases hs
    exact h.goto hpc id nofun hok
  | assertDone =>
    cases hs
    exact (h.assertDone hok.2).goto hpc id nofun (consumerOk_afterWait hok k nofun)

theorem inv_awaitStep {k : AfterWait} {pc : AwaitPc} (h : Inv s) (hpc : s.consumer = .await pc k)
    (hs : s.awaitStep k pc = some t) : Inv t := by
  have hok := h.consumer
  rw [hpc] at hok
  cases pc with
  | load =>
    simp only [awaitStep] at hs
    split_ifs at hs with hd <;> cases hs
    · exact h.goto hpc id nofun (consumerOk_afterWait (done_of_eq hok.1 (by decide) hd) k nofun)
    · exact h.goto hpc id nofun (hok.prepared hd)
  | set =>
    obtain ⟨hst, hctx, hreg⟩ := hok
    cases hs
    exact h.setContext hpc id hctx hreg ⟨hst, rfl, hreg⟩
  | cas => exact h.compareExchange hpc hs hok id id nofun ⟨rfl, rfl⟩ id
  | assertDone =>
    cases hs
    exact (h.assertDone hok.2).goto hpc id nofun (consumerOk_afterWait hok k nofun)
  | suspended => cases hs

theorem inv_waitForStep {pc : WaitForPc} (h : Inv s) (hpc : s.consumer = .waitFor pc)
    (hs : s.waitForStep pc = some t) : Inv t := by
  have hok := h.consumer
  rw [hpc] at hok
  cases pc with
  | load =>
    simp only [waitForStep] at hs
    split_ifs at hs with hd <;> cases hs
    · have hdone := done_of_eq hok.1 (by decide) hd
      exact h.goto hpc id nofun (hdone.quiet.ready (h.waitFor_ne hdone.1))
    · exact h.goto hpc id nofun (hok.prepared hd)
  | set =>
    obtain ⟨hst, hctx, hreg⟩ := hok
    cases hs
    exact h.setContext hpc id hctx hreg ⟨hst, rfl, hreg⟩
  | cas => exact h.compareExchange hpc hs hok id id nofun ⟨rfl, rfl⟩ id
  | acquire i =>
    simp only [waitForStep] at hs
    split_ifs at hs with hpos
    cases hs
    -- a permit is there, so the producer has released it
    have hp : s.producer.published = true := by
      cases hpub : s.producer.published with
      | false => exact absurd (h.permits hpub i) hpos
      | true => rfl
    have hd : Done s.producer.published s.state.pcState := ⟨hp, by rw [hok.1, hp]; rfl⟩
    have hgoto : Inv (s.goto (.waitFor .sync)) := h.goto hpc id nofun hd
    exact { hgoto with
      permits := fun hf => absurd (hf.symm.trans hp) (by decide) }
  | sync =>
    cases hs
    exact h.goto hpc id nofun hok
  | assertDone =>
    cases hs
    exact (h.assertDone hok.2).goto hpc id nofun (hok.quiet.ready (h.waitFor_ne hok.1))
  | rewind =>
    simp only [waitForStep] at hs
    split_ifs at hs with hc <;> cases hs
    · have hp := unpublished_of_eq hok.1 (by decide) hc
      exact h.unregister hp ⟨by rw [hp]; rfl, rfl⟩
    · exact h.goto hpc id nofun (done_of_ne hok.1 hc)
  | clear =>
    cases hs
    exact h.clearContext hpc id hok.2 ⟨⟨hok.1, fun _ => ⟨rfl, hok.2⟩⟩, fun _ => hok.2⟩

theorem inv_whenAnyStep {pc : WhenAnyPc} (h : Inv s) (hpc : s.consumer = .whenAny pc)
    (hs : s.whenAnyStep pc = some t) : Inv t := by
  have hok := h.consumer
  rw [hpc] at hok
  cases pc with
  | load =>
    simp only [whenAnyStep] at hs
    split_ifs at hs with hd <;> cases hs
    · exact h.goto hpc id nofun (done_of_eq hok.1 (by decide) hd).maybeRegistered
    · exact h.goto hpc id nofun (hok.prepared hd)
  | set =>
    obtain ⟨hst, hctx, hreg⟩ := hok
    cases hs
    exact h.setContext hpc id hctx hreg ⟨hst, rfl, hreg⟩
  | cas c => exact h.compareExchange hpc hs hok id id nofun ⟨rfl, fun _ => ⟨_, rfl, c, rfl⟩⟩ id
  | assertDone =>
    cases hs
    exact (h.assertDone hok.2).goto hpc id nofun hok.maybeRegistered
  | pending =>
    cases hs
    exact h.goto hpc id nofun (.inl hok)

theorem inv_rewindStep {k : AfterRewind} {pc : RewindPc} (h : Inv s)
    (hpc : s.consumer = .rewind pc k) (hs : s.rewindStep k pc = some t) : Inv t := by
  have hok := h.consumer
  -- the destructor of the shared state stays behind `share`
  have hshare : AfterShare (.rewind pc k) → AfterShare k.next := by cases k <;> exact id
  have hpoint : ∀ pc', AfterShare (.rewind pc k) → AfterShare (.rewind pc' k) := by
    cases k <;> exact fun _ => id
  rw [hpc] at hok
  cases pc with
  | load =>
    simp only [rewindStep] at hs
    split_ifs at hs with hc <;> cases hs
    · refine h.goto hpc id (hpoint _) (hok.resolve_right fun hq => ?_)
      -- a quiet state is not `consumer_set`
      have hst := hc.symm.trans hq.1
      cases hp : s.producer.published <;> rw [hp] at hst <;> cases hst
    · refine h.goto hpc id hshare (consumerOk_afterRewind ?_ k)
      exact hok.elim (fun hm => (done_of_ne hm.1 hc).quiet) id
  | cas =>
    simp only [rewindStep] at hs
    split_ifs at hs with hc <;> cases hs
    · have hp := unpublished_of_eq hok.1 (by decide) hc
      exact h.unregister hp ⟨by rw [hp]; rfl, rfl⟩
    · exact h.goto hpc id (hpoint _) (done_of_ne hok.1 hc)
  | assertDone =>
    cases hs
    exact (h.assertDone hok.2).goto hpc id hshare (consumerOk_afterRewind hok.quiet k)
  | clear =>
    cases hs
    exact h.clearContext hpc id hok.2
      (consumerOk_afterRewind ⟨hok.1, fun _ => ⟨rfl, hok.2⟩⟩ k)

theorem inv_shareStep {pc : SharePc} (h : Inv s) (hpc : s.consumer = .share pc)
    (hs : s.shareStep pc = some t) : Inv t := by
  have hok := h.consumer
  rw [hpc] at hok
  cases pc with
  | load =>
    simp only [shareStep] at hs
    split_ifs at hs with hd <;> cases hs
    · exact h.goto hpc id nofun (done_of_eq hok.1 (by decide) hd)
    · exact h.goto hpc id nofun (hok.prepared hd)
  | set =>
    obtain ⟨hst, hctx, hreg⟩ := hok
    cases hs
    exact h.setContext hpc id hctx hreg ⟨hst, rfl, hreg⟩
  | cas p =>
    exact h.compareExchange hpc hs hok id id (fun _ _ => trivial)
      ⟨rfl, fun _ => ⟨_, rfl, p, rfl⟩⟩ id
  | assertDone =>
    cases hs
    exact (h.assertDone hok.2).goto hpc id nofun hok
  | finish =>
    cases hs
    exact (h.onResultFinished hok).goto hpc id nofun hok.maybeRegistered
  | sharing | dropped => cases hs

theorem inv_joinedStep {pc : JoinedPc} (h : Inv s) (hpc : s.consumer = .joined pc)
    (hs : s.joinedStep pc = some t) : Inv t := by
  have hok := h.consumer
  rw [hpc] at hok
  cases pc with
  | get | assertDone =>
    cases hs
    exact (h.assertDone hok.2).goto hpc id nofun hok
  | delete =>
    cases hs
    refine h.deleteSelf.goto hpc id nofun ⟨fun hf => ?_, fun _ => .inl hok.2⟩
    exact absurd (hf.symm.trans hok.1) (by decide)

theorem inv_completeStep {pc : CompletePc} (h : Inv s) (hpc : s.consumer = .complete pc)
    (hs : s.completeStep pc = some t) : Inv t := by
  have hok := h.consumer
  rw [hpc] at hok
  cases pc with
  | load =>
    simp only [completeStep] at hs
    split_ifs at hs with hd <;> cases hs
    · have hdone := done_of_eq hok.1 (by decide) hd
      exact h.goto hpc id (fun _ => trivial) ⟨hdone.1, .inl hdone.2⟩
    · exact h.goto hpc id (fun _ => trivial) hok
  | exchange =>
    simp only [completeStep] at hs
    split_ifs at hs with hd <;> cases hs
    · have hdone := done_of_eq hok.1 (by decide) hd
      exact (h.check (by simp [hd])).setPcState hpc id (fun _ => trivial) ⟨hdone.1, .inr rfl⟩
    · have hp : s.producer.published = false := by
        cases hpub : s.producer.published with
        | false => rfl
        | true => exact absurd (hok.1.trans (by rw [hpub]; rfl)) hd
      have hi : s.state.pcState = .idle := by rw [hok.1, hp]; rfl
      refine ((h.check (by simp [hi])).check (by simp [hi])).setPcState hpc id (fun _ => trivial)
        ⟨fun _ => ⟨rfl, (hok.2 hp).2⟩, fun hf => absurd (hf.symm.trans hp) (by decide)⟩
  | delete =>
    cases hs
    refine h.deleteSelf.goto hpc id (fun _ => trivial) ⟨fun hf => ?_, fun _ => hok.2⟩
    exact absurd (hf.symm.trans hok.1) (by decide)

theorem inv_consumerStep (h : Inv s) (hs : s.consumerStep = some t) : Inv t := by
  unfold consumerStep at hs
  split at hs
  case h_1 => cases hs
  case h_2 hpc =>
    have hok := h.consumer
    rw [hpc] at hok
    cases hs
    refine (h.check ?_).goto hpc id nofun (hok.ready nofun)
    -- `status` is called on a quiet or finished state, never on `consumer_set`
    cases hp : s.producer.published <;> simp [hok.1, hp, expected]
  case h_3 hpc => exact inv_waitStep h hpc hs
  case h_4 hpc => exact inv_awaitStep h hpc hs
  case h_5 hpc => exact inv_waitForStep h hpc hs
  case h_6 hpc => exact inv_whenAnyStep h hpc hs
  case h_7 hpc => exact inv_rewindStep h hpc hs
  case h_8 hpc => exact inv_shareStep h hpc hs
  case h_9 hpc => exact inv_joinedStep h hpc hs
  case h_10 hpc => exact inv_completeStep h hpc hs
  case h_11 => cases hs

theorem inv_call {op : Op} (h : Inv s) (hs : s.call op = some t) : Inv t := by
  have hok := h.consumer
  unfold call at hs
  split at hs
  case h_1 hpc =>
    cases hs
    rw [hpc] at hok
    exact h.goto hpc id nofun (consumerOk_entry hok.1 _)
  case h_2 hpc =>
    split_ifs at hs with hidle
    cases hs
    rw [hpc] at hok
    refine h.assertDone ?_
    rw [hok.1, h.finished hidle]
    rfl
  case h_3 hpc =>
    cases hs
    rw [hpc] at hok
    have hpr := h.producer
    rw [hpc] at hpr
    cases hh : s.producer.holdsShared with
    | false =>
      exact { h with
        consumer := .inl hok
        producer := hpr.of_sharing hh
        shared := fun _ _ => trivial }
    | true =>
      have hp := ProducerPc.published_of_holdsShared hh
      exact { h with
        consumer := ⟨hp, hok.1.trans (by rw [hp]; rfl)⟩
        producer := hpr.of_holdsShared hh
        shared := fun _ _ => trivial }
  case h_4 => cases hs

theorem inv_timeout (h : Inv s) (hs : s.timeout = some t) : Inv t := by
  obtain ⟨i, hpc, rfl⟩ := timeout_eq_some hs
  have hok := h.consumer
  rw [hpc] at hok
  exact h.goto hpc id nofun hok

end Protocol
end Concurrencpp
