import Concurrencpp.Results.Release

/-!
# The registration of a waiter

The compare-exchange of `wait`, `await`, `wait_for`, `when_any` and `share` publishes a waiter
(`ConsumerPc.publishes`), the one of a timed-out `wait_for` and of `try_rewind_consumer` takes it
back (`ConsumerPc.takesBack`), and at some program points the consumer is blocked under it
(`ConsumerPc.blockedOn`).

* `registered_step`: only these steps change the registration, and none does once the producer has
  exchanged `m_pc_state`;
* `registered_run`: from the producer's exchange on it is the same along every run;
* `exchange_is_visible`: a call that starts past the exchange finds the outcome at its first load.
-/

namespace Concurrencpp

/-- The waiter under which the consumer is blocked or suspended at a program point. -/
def ConsumerPc.blockedOn : ConsumerPc → Option Waiter
  | .wait .loop _ | .wait .block _ => some .thread
  | .await (.suspended h) _ => some (.coroutine h)
  | .waitFor (.acquire i) => some (.semaphore i)
  | _ => none

/-- The waiter that the compare-exchange at this program point is about to publish. -/
def ConsumerPc.publishes : ConsumerPc → Option Waiter
  | .wait .cas _ => some .thread
  | .await (.cas h) _ => some (.coroutine h)
  | .waitFor (.cas i) => some (.semaphore i)
  | .whenAny (.cas c) => some (.whenAny c)
  | .share (.cas p) => some (.sharedState p)
  | _ => none

/-- The first load of `wait`, `await`, `wait_for`, `when_any` or `share`. -/
def ConsumerPc.firstLoad : ConsumerPc → Bool
  | .wait .load _ | .await .load _ | .waitFor .load | .whenAny .load | .share .load => true
  | _ => false

/-- The compare-exchange back to `idle`, in `wait_for` or in `try_rewind_consumer`. -/
def ConsumerPc.takesBack : ConsumerPc → Bool
  | .waitFor (.rewind _) | .rewind .cas _ => true
  | _ => false

theorem Op.blockedOn_entry (op : Op) : op.entry.blockedOn = none := by
  unfold Op.entry
  split <;> rfl

section

variable {α ε : Type} (outcome : ProducerContext α ε)

/-- The answer agrees with the outcome of the producer. -/
def Ret.Fits : Ret → Prop
  | .status st | .waitFor st => st = outcome.status
  | .wait | .resolve | .whenAny => True

/-- The program points of calls whose first load finds `producer_done`, and behind their answers. -/
def ConsumerPc.Settled : ConsumerPc → Prop
  | .ready last => ∃ r, last = some r ∧ r.Fits outcome
  | .status | .wait .load _ | .await .load _ | .waitFor .load | .whenAny .load | .whenAny .pending
  | .rewind .load _ | .share .load | .share .finish | .share .sharing | .share .dropped | .joined _
  | .complete .load | .complete .delete | .finished => True
  | _ => False

variable {outcome}

theorem ConsumerPc.Settled.answer {c : ConsumerPc} (h : c.Settled outcome) :
    c.blockedOn = none ∧ ∀ r, c = .ready (some r) → r.Fits outcome := by
  constructor
  · unfold ConsumerPc.blockedOn
    split <;> first | rfl | cases h
  · rintro r rfl
    obtain ⟨_, hr, hfits⟩ := h
    cases hr
    exact hfits

end

namespace Protocol

variable {α ε : Type} {s t : Protocol α ε}

/-! ### The registration -/

/-- After the producer's exchange the state is `producer_done`, or `consumer_done` again if the
consumer has given it up meanwhile. -/
theorem ConsumerOk.of_published {st : PcState} {ctx : ConsumerContext} {reg : Option Waiter}
    {pc : ConsumerPc} (h : ConsumerOk true st ctx reg pc) :
    st = .producerDone ∨ st = .consumerDone ∧ pc.completing = true := by
  cases pc with
  | ready => exact .inl h.1.1
  | status => exact .inl h.1
  | wait pc | await pc | waitFor pc | whenAny pc | share pc =>
    cases pc <;> first | exact .inl h.1 | exact .inl h.2
  | rewind pc =>
    cases pc with
    | load => rcases h with h | h <;> exact .inl h.1
    | assertDone => exact .inl h.2
    | _ => exact .inl h.1
  | joined => exact .inl h.2
  | complete pc =>
    cases pc with
    | delete => exact h.2.imp_right fun hst => ⟨hst, rfl⟩
    | _ => exact .inl h.1
  | finished => exact (h.2 rfl).imp_right fun hst => ⟨hst, rfl⟩

theorem Inv.unpublished (h : Inv s)
    (hst : s.state.pcState ≠ .producerDone ∧ s.state.pcState ≠ .consumerDone) :
    s.producer.published = false := by
  have hok := h.consumer
  cases hp : s.producer.published with
  | false => rfl
  | true =>
    rw [hp] at hok
    rcases hok.of_published with hd | ⟨hd, -⟩
    · exact absurd hd hst.1
    · exact absurd hd hst.2

theorem Inv.unpublished_of_idle (h : Inv s) (hi : s.state.pcState = .idle) :
    s.producer.published = false :=
  h.unpublished (by simp [hi])

theorem Inv.unpublished_of_consumerSet (h : Inv s) (hi : s.state.pcState = .consumerSet) :
    s.producer.published = false :=
  h.unpublished (by simp [hi])

/-- A blocked consumer is registered. -/
theorem Inv.registered_of_blockedOn {w : Waiter} (h : Inv s) (hw : s.consumer.blockedOn = some w) :
    s.registered = some w := by
  have hok := h.consumer
  cases hc : s.consumer with
  | wait pc =>
    rw [hc] at hok hw
    cases pc <;> cases hw <;> exact hok.2
  | await pc | waitFor pc =>
    rw [hc] at hok hw
    cases pc <;> cases hw
    exact hok.2
  | _ => rw [hc] at hw; cases hw

/-- Nothing is registered at the compare-exchange that publishes a waiter. -/
theorem Inv.registered_of_publishes {w : Waiter} (h : Inv s) (hw : s.consumer.publishes = some w) :
    s.registered = none := by
  have hok := h.consumer
  cases hc : s.consumer with
  | wait pc | await pc | waitFor pc | whenAny pc | share pc =>
    rw [hc] at hok hw
    cases pc <;> cases hw
    exact hok.2.2
  | _ => rw [hc] at hw; cases hw

/-- What a step of the consumer does to the registration, to the program points at which it is
blocked, and to the shared state.  No step begins a call or makes a holder. -/
@[mk_iff]
structure RegistrationEffect (s t : Protocol α ε) : Prop where
  registered : t.registered = s.registered ∨
    s.state.pcState = .idle ∧ (∃ w, s.consumer.publishes = some w ∧ t.registered = some w) ∨
    s.state.pcState = .consumerSet ∧ s.consumer.takesBack = true ∧ t.registered = none
  registers : ∀ w, s.consumer.publishes = some w → s.state.pcState = .idle → t.registered = some w
  blocked : ∀ w, t.consumer.blockedOn = some w →
    t.permits = s.permits ∧ (s.consumer.blockedOn = some w ∨ s.state.pcState = .idle)
  firstLoad : t.consumer.firstLoad = false
  holdsShared : t.consumer.holdsShared = true → s.consumer.holdsShared = true
  status : t.sharedStatus = s.sharedStatus ∨
    s.consumer = .share .finish ∧ t.sharedStatus = s.state.status
  sharing : t.consumer = .share .sharing →
    s.consumer = .share .finish ∨ ∃ p, t.registered = some (.sharedState p)

theorem consumerStep_registration (hs : s.consumerStep = some t) : RegistrationEffect s t := by
  unfold consumerStep waitStep awaitStep waitForStep whenAnyStep rewindStep shareStep joinedStep
    completeStep at hs
  repeat' split at hs
  all_goals cases hs
  -- where a call returns, the point it returns to decides
  all_goals try (rename AfterWait => k; cases k)
  all_goals try (rename AfterRewind => k; cases k)
  all_goals
    simp_all [registrationEffect_iff, ConsumerPc.blockedOn, ConsumerPc.publishes,
      ConsumerPc.takesBack, ConsumerPc.firstLoad, ConsumerPc.holdsShared, AfterWait.next,
      AfterRewind.next, goto, register, unregister, setPcState, setContext, clearContext, check,
      assertDone, onResultFinished, deleteSelf]

/-- **The registration is frozen by the producer's exchange**, and before it only a timed-out
`wait_for` and the rewinds take it back. -/
theorem registered_step {m : Move α ε} (h : Inv s) (hs : s.step m = some t) :
    (s.producer.published = true → t.registered = s.registered) ∧
    ∀ w, s.registered = some w → t.registered = some w ∨
      m = .consumer ∧ s.consumer.takesBack = true ∧ s.producer.published = false ∧
        t.registered = none := by
  -- every step but the consumer's own leaves the registration alone
  have hsame : t.registered = s.registered → (s.producer.published = true →
      t.registered = s.registered) ∧ ∀ w, s.registered = some w → t.registered = some w ∨
        m = .consumer ∧ s.consumer.takesBack = true ∧ s.producer.published = false ∧
          t.registered = none :=
    fun he => ⟨fun _ => he, fun w hw => .inl (he.trans hw)⟩
  cases m with
  | call => exact hsame (call_frame hs).2.2.1
  | consumer =>
    obtain he | ⟨hi, w', hpub, -⟩ | ⟨hset, htb, hnone⟩ := (consumerStep_registration hs).registered
    · exact hsame he
    · have hp := h.unpublished_of_idle hi
      refine ⟨fun hp' => absurd (hp.symm.trans hp') (by decide), fun w hw => ?_⟩
      cases hw.symm.trans (h.registered_of_publishes hpub)
    · have hp := h.unpublished_of_consumerSet hset
      exact ⟨fun hp' => absurd (hp.symm.trans hp') (by decide),
        fun w hw => .inr ⟨rfl, htb, hp, hnone⟩⟩
  | timeout =>
    obtain ⟨i, -, rfl⟩ := timeout_eq_some hs
    exact hsame rfl
  | setResult | setException =>
    obtain ⟨-, rfl⟩ := build_eq_some hs
    exact hsame rfl
  | completeProducer =>
    obtain ⟨-, rfl⟩ := completeProducer_eq_some hs
    exact hsame rfl
  | producer => exact hsame (producerStep_effect hs).registered

/-! ### Past the producer's exchange -/

theorem published_step {m : Move α ε} (hp : s.producer.published = true) (hs : s.step m = some t) :
    t.producer.published = true := by
  cases m with
  | call => rw [(call_frame hs).1, hp]
  | consumer => rw [(consumerStep_effect hs).producer, hp]
  | timeout =>
    obtain ⟨i, -, rfl⟩ := timeout_eq_some hs
    exact hp
  | setResult | setException =>
    obtain ⟨hpc, -⟩ := build_eq_some hs
    rw [hpc] at hp
    cases hp
  | completeProducer =>
    obtain ⟨hpc, -⟩ := completeProducer_eq_some hs
    rw [hpc.1] at hp
    cases hp
  | producer =>
    have hx : s.producer ≠ .exchange := fun hpc => by rw [hpc] at hp; cases hp
    exact ((producerStep_effect hs).published hx).2.1

/-- Past the exchange, a run keeps the registration. -/
theorem registered_run {ms : List (Move α ε)} {u : Protocol α ε} (h : Reachable s)
    (hp : s.producer.published = true) (hr : Interleaving.run step s ms = some u) :
    Reachable u ∧ u.producer.published = true ∧ u.registered = s.registered := by
  refine Interleaving.run_invariant
    (fun u => Reachable u ∧ u.producer.published = true ∧ u.registered = s.registered)
    (fun a m b hi hs => ?_) ⟨h, hp, rfl⟩ hr
  obtain ⟨ha, hpa, hra⟩ := hi
  have hinv := inv_of_reachable ha
  exact ⟨ha.next trivial hs, published_step hpa hs,
    ((registered_step hinv hs).1 hpa).trans hra⟩

/-! ### Calls past the producer's exchange -/

open Interleaving (run run_invariant lastState)

variable {u : Protocol α ε} {outcome : ProducerContext α ε}

theorem call_settled {op : Op} (hs : s.call op = some t) :
    t.state.producer = s.state.producer ∧ t.consumer.Settled outcome := by
  unfold call at hs
  split at hs
  case h_1 =>
    cases hs
    refine ⟨rfl, ?_⟩
    show ConsumerPc.Settled _ (Op.entry _)
    unfold Op.entry
    split <;> trivial
  case h_2 hpc =>
    split_ifs at hs
    cases hs
    refine ⟨rfl, ?_⟩
    rw [show s.assertDone.consumer = _ from hpc]
    trivial
  case h_3 =>
    cases hs
    refine ⟨rfl, ?_⟩
    show ConsumerPc.Settled _ (ite _ _ _)
    split_ifs <;> trivial
  case h_4 => cases hs

theorem settled_consumerStep (h : Inv s) (hp : s.producer.published = true)
    (hc : s.consumer.Settled s.state.producer) (hs : s.consumerStep = some t) :
    t.consumer.Settled s.state.producer := by
  have hok := h.consumer
  rw [hp] at hok
  -- `consumer_done` is there only once the consumer has let the state go
  have hst := hok.of_published
  unfold consumerStep waitStep awaitStep waitForStep whenAnyStep rewindStep shareStep joinedStep
    completeStep at hs
  repeat' split at hs
  all_goals cases hs
  all_goals
    grind [goto, ConsumerOk, CompleteOk, Quiet, expected, ConsumerPc.completing, ConsumerPc.Settled,
      Ret.Fits, AfterWait.next, cases AfterWait, AfterRewind.next, cases AfterRewind,
      ResultState.status]

theorem settled_step {m : Move α ε} (h : Inv s) (hp : s.producer.published = true)
    (hc : s.consumer.Settled s.state.producer) (hs : s.step m = some t) :
    t.state.producer = s.state.producer ∧ t.consumer.Settled s.state.producer := by
  cases m with
  | call => exact call_settled hs
  | consumer => exact ⟨(consumerStep_effect hs).outcome, settled_consumerStep h hp hc hs⟩
  | timeout =>
    obtain ⟨i, hpc, -⟩ := timeout_eq_some hs
    cases hpc ▸ hc
  | setResult | setException => cases (build_eq_some hs).1 ▸ hp
  | completeProducer => cases (completeProducer_eq_some hs).1.1 ▸ hp
  | producer =>
    have heff := producerStep_effect hs
    refine ⟨heff.outcome, ?_⟩
    rcases heff.consumer with hsame | ⟨-, -, hdrop⟩ | ⟨i, k, -, hpc, -⟩
    · exact hsame ▸ hc
    · exact hdrop ▸ trivial
    · cases hpc ▸ hc

theorem settled_run {ms : List (Move α ε)} (h : Reachable s) (hp : s.producer.published = true)
    (hc : s.consumer.Settled s.state.producer) (hrun : run step s ms = some u) :
    u.state.producer = s.state.producer ∧ u.consumer.Settled s.state.producer := by
  refine (run_invariant (fun u => (Reachable u ∧ u.producer.published = true) ∧
    u.state.producer = s.state.producer ∧ u.consumer.Settled s.state.producer)
    (fun a m b hi hs => ?_) ⟨⟨h, hp⟩, rfl, hc⟩ hrun).2
  obtain ⟨⟨ha, hpa⟩, hstate, hca⟩ := hi
  have hinv := inv_of_reachable ha
  obtain ⟨hstate', hc'⟩ := settled_step hinv hpa (hstate ▸ hca) hs
  exact ⟨⟨ha.next trivial hs, published_step hpa hs⟩, hstate'.trans hstate, hstate ▸ hc'⟩

/-- **No call misses the producer's exchange.**  From a call on that starts past the exchange,
whatever the parties do, the outcome stays, the consumer does not block, and each answer it gets
agrees with the outcome. -/
theorem exchange_is_visible (op : Op) (ms : List (Move α ε)) (h : Reachable s)
    (hp : s.producer.published = true) (hs : s.step (.call op) = some t)
    (hrun : run step t ms = some u) :
    s.state.producer ≠ .idle ∧ u.state.producer = s.state.producer ∧ u.consumer.blockedOn = none ∧
      ∀ r, u.consumer = .ready (some r) → r.Fits s.state.producer := by
  have hinv := inv_of_reachable h
  obtain ⟨hstate, hc⟩ := call_settled hs
  obtain ⟨hu, hcu⟩ := settled_run (h.next trivial hs) (published_step hp hs) hc hrun
  rw [hstate] at hu hcu
  refine ⟨hinv.built fun hpc => ?_, hu, hcu.answer⟩
  cases hpc ▸ hp

/-- The producer comes behind a `status`; a `wait_for` then answers at once. -/
theorem exchange_is_visible_of_status :
    ∃ s t u : Protocol ℕ ℕ, Reachable s ∧ s.consumer = .ready (some (.status .idle)) ∧
      s.step (.call .waitFor) = some t ∧ t.step .consumer = some u ∧
      u.consumer = .ready (some (.waitFor .value)) ∧ u.consumer.blockedOn = none := by
  let schedule : List (Move ℕ ℕ) :=
    [.call .status, .consumer, .setResult 7, .completeProducer none, .producer]
  let s := lastState step initial schedule
  have h : Reachable s := .lastState (by rfl) schedule
  exact ⟨s, _, _, h, rfl, rfl, rfl, rfl,
    (exchange_is_visible .waitFor [.consumer] h rfl rfl rfl).2.2.1⟩

end Protocol
end Concurrencpp
