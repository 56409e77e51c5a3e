import Concurrencpp.Results.WhenAnyProducers

/-!
# The asserts of `result_state` and `consumer_context`

The representation invariant of `result_state` with what follows from it for the source: the tag of
the consumer context and `m_pc_state` agree, every setter of the context finds it idle, the idle
branch of `resume_consumer` is never taken, and no assert fails, those of `when_any_context`
included.

A timed-out `wait_for` and a successful `try_rewind_consumer` give the context back idle.  They give
`m_pc_state` back idle only if the producer has not exchanged it between their compare-exchange and
their `clear` (`timed_out_wait_for_returns_done`).
-/

namespace Concurrencpp

open Interleaving

/-- The calls of `set_await_handle`, `set_wait_for_context`, `set_when_any_context` and
`set_shared_context`. -/
def ConsumerPc.setsContext : ConsumerPc → Bool
  | .await .set _ | .waitFor .set | .whenAny .set | .share .set => true
  | _ => false

/-- The `clear` of a timed-out `wait_for` and of a successful `try_rewind_consumer`. -/
def ConsumerPc.clears : ConsumerPc → Bool
  | .waitFor .clear | .rewind .clear _ => true
  | _ => false

namespace Protocol

variable {α ε : Type} {s t : Protocol α ε}

theorem Inv.context_of_consumerSet (h : Inv s) (hst : s.state.pcState = .consumerSet) :
    s.state.consumer ≠ .idle ∧ s.state.consumer = s.stored := by
  have hok := h.consumer
  rw [h.unpublished_of_consumerSet hst, hst] at hok
  obtain ⟨w, hw, hne, -⟩ := hok.of_consumerSet
  have hctx : s.state.consumer ≠ .idle := by
    rw [h.context w hw]
    cases w with
    | thread => exact absurd rfl hne
    | _ => nofun
  exact ⟨hctx, h.stored hctx⟩

theorem Inv.context_of_resume (h : Inv s) (hpc : s.producer = .resume) :
    s.state.consumer ≠ .idle := by
  have hpr := h.producer
  rw [hpc] at hpr
  obtain ⟨w, hw, hne, -⟩ := hpr
  rw [h.context w hw]
  cases w with
  | thread => exact absurd rfl hne
  | _ => nofun

theorem Inv.context_of_setsContext (h : Inv s) (hc : s.consumer.setsContext = true) :
    s.state.consumer = .idle := by
  have hok := h.consumer
  cases hpc : s.consumer with
  | await pc | waitFor pc | whenAny pc | share pc =>
    rw [hpc] at hok hc; cases pc <;> first | exact hok.2.1 | cases hc
  | _ => rw [hpc] at hc; cases hc

/-- `clear` leaves an idle context behind, and an idle state unless the producer is done. -/
theorem Inv.clear (h : Inv s) (hc : s.consumer.clears = true) (hs : s.consumerStep = some t) :
    t.state.consumer = .idle ∧ t.registered = none ∧
      t.state.pcState = expected t.producer.published .idle := by
  have hok := h.consumer
  cases hpc : s.consumer with
  | waitFor pc | rewind pc =>
    rw [hpc] at hok hc
    simp only [consumerStep, hpc] at hs
    cases pc with
    | clear => cases hs; exact ⟨rfl, hok.2, hok.1⟩
    | _ => cases hc
  | _ => rw [hpc] at hc; cases hc

/-- **The representation invariant.**  `consumer_set` stands for a context that is not idle and is
the one stored last, so that `resume_consumer` never takes its idle branch; every setter of the
context finds it idle; a timed-out `wait_for` and a successful `try_rewind_consumer` leave the
context idle and `m_pc_state` idle, or `producer_done` if the producer has come meanwhile; and no
assert fails, in one result or in a `when_any` over many. -/
theorem representation_invariant (h : Reachable s) :
    (s.state.pcState = .consumerSet → s.state.consumer ≠ .idle ∧ s.state.consumer = s.stored) ∧
    (s.producer = .resume → s.state.consumer ≠ .idle) ∧
    (s.consumer.setsContext = true → s.state.consumer = .idle) ∧
    (∀ t, s.consumer.clears = true → s.step .consumer = some t →
      t.state.consumer = .idle ∧
        t.state.pcState = if t.producer.published then .producerDone else .idle) ∧
    s.assertFailed = false ∧
    ∀ (n : ℕ) (w : WhenAny α ε n), WhenAny.Reachable w →
      w.assertFailed = false ∧ ∀ i, (w.inputs i).assertFailed = false := by
  have hinv := inv_of_reachable h
  refine ⟨hinv.context_of_consumerSet, hinv.context_of_resume, hinv.context_of_setsContext,
    fun t hc hs => ?_, hinv.asserts,
    fun n w hw => ⟨(WhenAny.inv_of_reachable hw).asserts, fun i => ?_⟩⟩
  · obtain ⟨hctx, -, hst⟩ := hinv.clear hc hs
    exact ⟨hctx, hst⟩
  · exact (inv_of_reachable (WhenAny.input_reachable hw i)).asserts

/-- The second of two timed-out `wait_for`s, at its `clear`. -/
theorem representation_invariant_of_timeouts :
    ∃ s t : Protocol ℕ ℕ, Reachable s ∧ s.step .consumer = some t ∧
      t.consumer = .ready (some (.waitFor .idle)) ∧ t.state.consumer = .idle ∧
      t.state.pcState = .idle := by
  let schedule : List (Move ℕ ℕ) := [.call .waitFor, .consumer, .consumer, .consumer, .timeout,
    .consumer, .consumer, .call .waitFor, .consumer, .consumer, .consumer, .timeout, .consumer]
  let s := lastState step initial schedule
  have h : Reachable s := .lastState (by rfl) schedule
  obtain ⟨hctx, hst⟩ := (representation_invariant h).2.2.2.1 _ rfl rfl
  exact ⟨s, _, h, rfl, rfl, hctx, hst⟩

/-- A `wait_for` times out and takes its registration back; the producer exchanges `m_pc_state`
before the `clear`.  The call answers `idle`, but the state it leaves behind is `producer_done`. -/
theorem timed_out_wait_for_returns_done :
    ∃ s t : Protocol ℕ ℕ, Reachable s ∧ s.consumer = .waitFor .clear ∧
      s.step .consumer = some t ∧ t.consumer = .ready (some (.waitFor .idle)) ∧
      (t.state.pcState, t.state.consumer) = (.producerDone, .idle) := by
  let schedule : List (Move ℕ ℕ) := [.call .waitFor, .consumer, .consumer, .consumer, .timeout,
    .consumer, .setResult 7, .completeProducer none, .producer]
  let s := lastState step initial schedule
  have h : Reachable s := .lastState (by rfl) schedule
  exact ⟨s, _, h, rfl, rfl, rfl, rfl⟩

end Protocol
end Concurrencpp
