import Concurrencpp.Results.ProducerSteps

/-!
# The release of a `result_state`

`delete_self` is called from four places: `complete_joined_consumer`, two branches of
`complete_consumer`, and the branch of `complete_producer` that finds `consumer_done`.

* `counted_of_reachable`: it has run exactly when both parties are through with the state, so it
  runs once and never too early (`released_exactly_once`).
* Releasing once is not enough for memory safety.  After its exchange the producer still reads the
  consumer context, or notifies the waiting thread (`ProducerPc.pending`), while the consumer may
  already have seen `producer_done` and released the state: `access_after_release` is such a run.
  `no_access_after_release` shows that these are the only ones.
-/

namespace Concurrencpp

open Interleaving

/-- The consumer's next step is its `delete_self`. -/
def ConsumerPc.releases : ConsumerPc → Bool
  | .joined .delete | .complete .delete => true
  | _ => false

/-- The consumer is inside the call that gives the state up, or past it. -/
def ConsumerPc.completing : ConsumerPc → Bool
  | .joined _ | .complete _ | .finished => true
  | _ => false

/-- The consumer's next step reads or writes the state. -/
def ConsumerPc.accesses : ConsumerPc → Bool
  | .ready _ | .await (.suspended _) _ | .waitFor (.acquire _) | .whenAny .pending
  | .share .sharing | .share .dropped | .finished => false
  | _ => true

/-- The producer has exchanged `consumer_set` or `consumer_waiting`, and has yet to read the
consumer context or to notify. -/
def ProducerPc.pending : ProducerPc → Bool
  | .resume | .resumeAwait | .resumeWaitFor | .resumeWhenAny | .resumeShared | .notify => true
  | _ => false

/-- The producer's next step reads or writes the state. -/
def ProducerPc.accesses : ProducerPc → Bool
  | .callHandle _ | .releaseSemaphore _ | .tryResume _ | .lockShared _ | .dropShared | .done =>
      false
  | _ => true

theorem AfterWait.next_ne_finished (r : Ret) (k : AfterWait) : k.next r ≠ .finished := by
  cases k <;> nofun

theorem AfterRewind.next_ne_finished (k : AfterRewind) : k.next ≠ .finished := by
  cases k <;> nofun

namespace Protocol

variable {α ε : Type} {s t : Protocol α ε}

/-- The step reads or writes the result state. -/
def accesses (s : Protocol α ε) : Move α ε → Bool
  | .call .get => s.consumer = .share .sharing
  | .call _ | .timeout => false
  | .consumer => s.consumer.accesses
  | .producer => s.producer.accesses
  | .setResult _ | .setException _ | .completeProducer _ => true

/-! ### What a step of the consumer does -/

/-- `delete_self` lets the consumer finish, and without it only the exchange of `complete_consumer`
does.  The names of contexts are not used again. -/
@[mk_iff]
structure ConsumerEffect (s t : Protocol α ε) : Prop where
  producer : t.producer = s.producer
  woken : t.woken = s.woken
  outcome : t.state.producer = s.state.producer
  releases : s.consumer.releases = true → t.deletions = s.deletions + 1 ∧ t.consumer = .finished
  keeps : s.consumer.releases = false → t.deletions = s.deletions ∧ (t.consumer = .finished →
    s.consumer = .complete .exchange ∧ s.state.pcState ≠ .producerDone)
  fresh : s.fresh ≤ t.fresh ∧
    ∀ c, t.state.consumer = .whenAny c → s.state.consumer = .whenAny c ∨ c < t.fresh

theorem consumerStep_effect (hs : s.consumerStep = some t) : ConsumerEffect s t := by
  unfold consumerStep waitStep awaitStep waitForStep whenAnyStep rewindStep shareStep joinedStep
    completeStep at hs
  repeat' split at hs
  all_goals cases hs
  all_goals
    simp_all [consumerEffect_iff, ConsumerPc.releases, goto, register, unregister, setPcState,
      setContext, clearContext, check, assertDone, onResultFinished, deleteSelf,
      AfterWait.next_ne_finished, AfterRewind.next_ne_finished]

theorem consumer_ne_finished (hs : s.consumerStep = some t) : s.consumer ≠ .finished := by
  intro hc
  simp [consumerStep, hc] at hs

theorem call_frame {op : Op} (hs : s.call op = some t) :
    t.producer = s.producer ∧ t.woken = s.woken ∧ t.registered = s.registered ∧
      t.deletions = s.deletions ∧ s.consumer ≠ .finished ∧ t.consumer ≠ .finished := by
  unfold call at hs
  split at hs
  case h_1 hpc =>
    cases hs
    refine ⟨rfl, rfl, rfl, rfl, by rw [hpc]; nofun, ?_⟩
    show Op.entry _ ≠ _
    unfold Op.entry
    split <;> nofun
  case h_2 hpc =>
    split_ifs at hs
    cases hs
    exact ⟨rfl, rfl, rfl, rfl, by rw [hpc]; nofun,
      by rw [show s.assertDone.consumer = _ from hpc]; nofun⟩
  case h_3 hpc =>
    cases hs
    refine ⟨rfl, rfl, rfl, rfl, by rw [hpc]; nofun, ?_⟩
    show ite _ _ _ ≠ _
    split_ifs <;> nofun
  case h_4 => cases hs

/-- What a step of the producer does: it moves the consumer only by resuming its coroutine or by
dropping the shared state, and leaves the registration and the consumer context alone. -/
@[mk_iff]
structure ProducerEffect (s t : Protocol α ε) : Prop where
  registered : t.registered = s.registered
  fresh : t.fresh = s.fresh
  outcome : t.state.producer = s.state.producer
  context : t.state.consumer = s.state.consumer
  state : s.producer ≠ .exchange → t.state = s.state
  consumer : t.consumer = s.consumer ∨
    s.producer = .dropShared ∧ s.consumer = .share .dropped ∧ t.consumer = .rewind .load .complete ∨
    ∃ i k, s.producer = .callHandle i ∧ s.consumer = .await (.suspended i) k ∧
      t.consumer = k.next .resolve
  woken : ∀ w ∈ s.woken, w ∈ t.woken
  status : t.sharedStatus = s.sharedStatus ∨ ∃ p, s.producer = .onResultFinished p ∧
    t.sharedStatus = s.state.status ∧ .sharedState p ∈ t.woken
  deletions : s.producer ≠ .delete → t.deletions = s.deletions
  published : s.producer ≠ .exchange → s.producer.published = true ∧ t.producer.published = true ∧
    t.producer ≠ .delete
  pending : s.producer ≠ .exchange → s.producer.pending = false → t.producer.pending = false

theorem producerStep_effect (hs : s.producerStep = some t) : ProducerEffect s t := by
  unfold producerStep exchangeStep resumeStep copyStep resumeHandle at hs
  repeat' split at hs
  all_goals cases hs
  all_goals
    simp_all [producerEffect_iff, produce, wake, check, setPcState, onResultFinished, deleteSelf,
      goto, ProducerPc.published, ProducerPc.pending]

theorem ProducerEffect.finished_iff (h : ProducerEffect s t) :
    t.consumer = .finished ↔ s.consumer = .finished := by
  rcases h.consumer with hc | ⟨-, hs, ht⟩ | ⟨i, k, -, hs, ht⟩
  · rw [hc]
  · simp [hs, ht]
  · simp [hs, ht, AfterWait.next_ne_finished]

/-! ### `delete_self` runs once -/

/-- How often `delete_self` has run: once as soon as the consumer has finished and the producer has
exchanged, unless the producer is the one that still has to call it. -/
def Counted (s : Protocol α ε) : Prop :=
  s.deletions =
    if s.consumer = .finished ∧ s.producer.published = true ∧ s.producer ≠ .delete then 1 else 0

theorem Counted.eq_zero (hc : Counted s) (hf : s.consumer ≠ .finished) : s.deletions = 0 := by
  rw [hc, if_neg (fun h => hf h.1)]

/-- A consumer about to call `delete_self` has been left the state by a producer that exchanged. -/
theorem Inv.of_releases (h : Inv s) (hr : s.consumer.releases = true) :
    s.producer.published = true ∧ s.producer ≠ .delete := by
  have hok := h.consumer
  have hpr := h.producer
  cases hc : s.consumer with
  | joined =>
    rw [hc] at hok hpr
    exact ⟨hok.1, fun hd => by rw [hd] at hpr; cases hpr.2⟩
  | complete pc =>
    rw [hc] at hok hpr hr
    cases pc with
    | delete => exact ⟨hok.1, fun hd => by rw [hd] at hpr; cases hpr.2⟩
    | _ => cases hr
  | _ => rw [hc] at hr; cases hr

theorem counted_consumerStep (h : Inv s) (hc : Counted s) (hs : s.consumerStep = some t) :
    Counted t := by
  have hz := hc.eq_zero (consumer_ne_finished hs)
  have hprod := (consumerStep_effect hs).producer
  unfold Counted
  cases hr : s.consumer.releases with
  | true =>
    obtain ⟨hp, hd⟩ := h.of_releases hr
    obtain ⟨hdel, hfin⟩ := (consumerStep_effect hs).releases hr
    rw [hdel, hz, hprod, if_pos ⟨hfin, hp, hd⟩]
  | false =>
    obtain ⟨hdel, hfin⟩ := (consumerStep_effect hs).keeps hr
    rw [hdel, hz, if_neg]
    -- the consumer that leaves by the exchange has come before the producer
    rintro ⟨hf, hp, -⟩
    obtain ⟨hpc, hne⟩ := hfin hf
    have hok := h.consumer
    rw [hpc, ← hprod, hp] at hok
    exact hne hok.1

theorem counted_exchangeStep (h : Inv s) (hc : Counted s) (hpc : s.producer = .exchange) :
    Counted s.exchangeStep := by
  have hok := h.consumer
  rw [hpc] at hok
  have hz : s.deletions = 0 := by
    rw [hc, if_neg]
    rw [hpc]
    rintro ⟨-, hp, -⟩
    cases hp
  -- a finished consumer has left `consumer_done`, and the producer will delete
  have hfin : s.consumer = .finished → s.state.pcState = .consumerDone := fun hf => by
    rw [hf] at hok
    exact (hok.1 rfl).1
  unfold exchangeStep
  cases hst : s.state.pcState with
  | consumerDone => exact hz.trans (if_neg fun hn => hn.2.2 rfl).symm
  | _ => exact hz.trans (if_neg fun hn => by have := hfin hn.1; rw [hst] at this; cases this).symm

theorem counted_step {m : Move α ε} (h : Inv s) (hc : Counted s) (hs : s.step m = some t) :
    Counted t := by
  cases m with
  | call =>
    obtain ⟨-, -, -, hdel, hne, hne'⟩ := call_frame hs
    exact (hdel.trans (hc.eq_zero hne)).trans (if_neg fun hn => hne' hn.1).symm
  | consumer => exact counted_consumerStep h hc hs
  | timeout =>
    obtain ⟨i, hpc, rfl⟩ := timeout_eq_some hs
    exact (hc.eq_zero (by rw [hpc]; nofun)).trans (if_neg nofun).symm
  | setResult | setException =>
    obtain ⟨hpc, rfl⟩ := build_eq_some hs
    refine Eq.trans ?_ (if_neg fun hn => by cases hn.2.1).symm
    exact hc.trans (if_neg fun hn => by rw [hpc] at hn; cases hn.2.1)
  | completeProducer =>
    obtain ⟨hpc, rfl⟩ := completeProducer_eq_some hs
    refine Eq.trans ?_ (if_neg fun hn => by cases hn.2.1).symm
    exact hc.trans (if_neg fun hn => by rw [hpc.1] at hn; cases hn.2.1)
  | producer =>
    by_cases hx : s.producer = .exchange
    · simp only [step, producerStep, hx] at hs
      cases hs
      exact counted_exchangeStep h hc hx
    · by_cases hd : s.producer = .delete
      · simp only [step, producerStep, hd] at hs
        cases hs
        have hpr := h.producer
        rw [hd] at hpr
        refine Eq.trans ?_ (if_pos ⟨hpr.2, rfl, nofun⟩).symm
        show s.deletions + 1 = 1
        rw [hc, if_neg fun hn => hn.2.2 hd]
      · have heff := producerStep_effect hs
        obtain ⟨hp, hp', hd'⟩ := heff.published hx
        unfold Counted
        rw [heff.deletions hd, hc]
        refine if_congr ?_ rfl rfl
        simp only [heff.finished_iff, hp, hp', ne_eq, hd, hd', not_false_eq_true, and_self]

theorem counted_of_reachable (h : Reachable s) : Counted s := by
  refine Reach.invariant_of_reach ?_ ?_ h
  · rintro _ rfl
    rfl
  · exact fun _ _ _ hr hc _ hs => counted_step (inv_of_reachable hr) hc hs

/-- A step that runs `delete_self` comes after the producer's exchange and inside the call that ends
the consumer. -/
theorem released_by {m : Move α ε} (h : Inv s) (hs : s.step m = some t)
    (hne : t.deletions ≠ s.deletions) :
    t.deletions = s.deletions + 1 ∧ s.producer.published = true ∧
      s.consumer.completing = true := by
  cases m with
  | call => exact absurd (call_frame hs).2.2.2.1 hne
  | consumer =>
    cases hr : s.consumer.releases with
    | true =>
      refine ⟨((consumerStep_effect hs).releases hr).1, (h.of_releases hr).1, ?_⟩
      cases hc : s.consumer <;> rw [hc] at hr <;> first | rfl | cases hr
    | false => exact absurd ((consumerStep_effect hs).keeps hr).1 hne
  | timeout =>
    obtain ⟨i, -, rfl⟩ := timeout_eq_some hs
    exact absurd rfl hne
  | setResult | setException =>
    obtain ⟨-, rfl⟩ := build_eq_some hs
    exact absurd rfl hne
  | completeProducer =>
    obtain ⟨-, rfl⟩ := completeProducer_eq_some hs
    exact absurd rfl hne
  | producer =>
    by_cases hd : s.producer = .delete
    · simp only [step, producerStep, hd] at hs
      cases hs
      have hpr := h.producer
      rw [hd] at hpr
      refine ⟨rfl, by rw [hd]; rfl, ?_⟩
      rw [hpr.2]
      rfl
    · by_cases hx : s.producer = .exchange
      · simp only [step, producerStep, hx] at hs
        cases hs
        refine absurd ?_ hne
        unfold exchangeStep
        split <;> rfl
      · exact absurd ((producerStep_effect hs).deletions hd) hne

/-- **A result state is released exactly once.**  `delete_self` runs at most once; it has run once
both `complete_producer` and the consumer's completing call have finished; and no step runs it
before the producer has exchanged and the consumer has started that call. -/
theorem released_exactly_once (h : Reachable s) :
    s.deletions ≤ 1 ∧
      (s.producer = .done → s.consumer = .finished → s.deletions = 1) ∧
      ∀ m t, s.step m = some t → t.deletions ≠ s.deletions →
        s.deletions = 0 ∧ t.deletions = 1 ∧ s.producer.published = true ∧
          s.consumer.completing = true := by
  have hc := counted_of_reachable h
  have hle : ∀ {u : Protocol α ε}, Counted u → u.deletions ≤ 1 := fun {u} hu => by
    rw [hu]
    split_ifs <;> decide
  refine ⟨hle hc, fun hp hf => ?_, fun m t hs hne => ?_⟩
  · rw [hc, if_pos]
    rw [hp]
    exact ⟨hf, rfl, nofun⟩
  · obtain ⟨hdel, hp, hcomp⟩ := released_by (inv_of_reachable h) hs hne
    have ht := hle (counted_of_reachable (h.next trivial hs))
    refine ⟨by omega, by omega, hp, hcomp⟩

/-- A run in which the consumer leaves first and the producer releases the state. -/
theorem released_exactly_once_of_destroy :
    ∃ s : Protocol ℕ ℕ, Reachable s ∧ s.producer = .done ∧ s.consumer = .finished ∧
      s.deletions = 1 := by
  let schedule : List (Move ℕ ℕ) := [.call .destroy, .consumer, .setResult 7,
    .completeProducer (some ⟨0, true⟩), .consumer, .producer, .producer]
  let s := lastState step initial schedule
  have h : Reachable s := .lastState (by rfl) schedule
  exact ⟨s, h, rfl, rfl, (released_exactly_once h).2.1 rfl rfl⟩

/-! ### Accesses after the release -/

/-- The condition under which a step of the consumer may release the state: the producer has
nothing left to read or notify. -/
def ReleasesLast (s : Protocol α ε) (m : Move α ε) : Prop :=
  m = .consumer → s.consumer.releases = true → s.producer.pending = false

instance (s : Protocol α ε) (m : Move α ε) : Decidable (ReleasesLast s m) :=
  match m with
  | .consumer => decidable_of_iff (s.consumer.releases = true → s.producer.pending = false)
      ⟨fun h _ => h, fun h => h rfl⟩
  | .call _ | .timeout | .setResult _ | .setException _ | .completeProducer _ | .producer =>
      .isTrue nofun

/-- A finished consumer has left the producer nothing to read or notify. -/
def Quitted (s : Protocol α ε) : Prop := s.consumer = .finished → s.producer.pending = false

theorem quitted_exchangeStep (h : Inv s) (hpc : s.producer = .exchange) :
    Quitted s.exchangeStep := by
  have hok := h.consumer
  rw [hpc] at hok
  unfold exchangeStep
  cases hst : s.state.pcState with
  | idle | consumerDone | producerDone => exact fun _ => rfl
  | consumerSet | consumerWaiting =>
    intro hf
    rw [show s.consumer = .finished from hf, hst] at hok
    cases (hok.1 rfl).1

theorem quitted_step {m : Move α ε} (h : Inv s) (hq : Quitted s) (hm : ReleasesLast s m)
    (hs : s.step m = some t) : Quitted t := by
  cases m with
  | call => exact fun hf => absurd hf (call_frame hs).2.2.2.2.2
  | consumer =>
    intro hf
    rw [(consumerStep_effect hs).producer]
    cases hr : s.consumer.releases with
    | true => exact hm rfl hr
    | false =>
      -- the exchange of `complete_consumer` found `idle`: the producer is not there yet
      obtain ⟨hpc, hne⟩ := ((consumerStep_effect hs).keeps hr).2 hf
      have hok := h.consumer
      rw [hpc] at hok
      cases hp : s.producer with
      | building | built | exchange => rfl
      | _ => rw [hp] at hok; exact absurd hok.1 hne
  | timeout =>
    obtain ⟨i, -, rfl⟩ := timeout_eq_some hs
    exact nofun
  | setResult | setException =>
    obtain ⟨-, rfl⟩ := build_eq_some hs
    exact fun _ => rfl
  | completeProducer =>
    obtain ⟨-, rfl⟩ := completeProducer_eq_some hs
    exact fun _ => rfl
  | producer =>
    by_cases hx : s.producer = .exchange
    · simp only [step, producerStep, hx] at hs
      cases hs
      exact quitted_exchangeStep h hx
    · have heff := producerStep_effect hs
      exact fun hf => heff.pending hx (hq (heff.finished_iff.1 hf))

theorem quitted_of_reach (h : Reach step IsInitial ReleasesLast s) : Quitted s := by
  refine Reach.invariant_of_reach ?_ ?_ h
  · rintro _ rfl
    exact nofun
  · exact fun _ _ _ hr hq hm hs => quitted_step (inv_of_reachable hr.reachable) hq hm hs

/-- Once the state is released, the consumer has finished and the producer has exchanged. -/
theorem finished_of_deletions (h : Reachable s) (hd : 0 < s.deletions) :
    s.consumer = .finished ∧ s.producer.published = true ∧ s.producer ≠ .delete := by
  have hc := counted_of_reachable h
  unfold Counted at hc
  split_ifs at hc with hf
  · exact hf
  · omega

/-- **No access after the release, unless the consumer releases in the producer's window.**  In a
run whose consumer never calls `delete_self` while the producer has yet to read the context or to
notify, no step touches the state once it is released; and a `delete_self` inside that window is
followed by an access, the producer's very next step. -/
theorem no_access_after_release :
    (∀ s : Protocol α ε, Reach step IsInitial ReleasesLast s → 0 < s.deletions →
      ∀ m t, s.step m = some t → s.accesses m = false) ∧
    (∀ s : Protocol α ε, Reachable s → ∀ m t, s.step m = some t → ¬ ReleasesLast s m →
      0 < t.deletions ∧ ∃ u, t.step .producer = some u ∧ t.accesses .producer = true) := by
  refine ⟨fun s h hd m t hs => ?_, fun s h m t hs hm => ?_⟩
  · obtain ⟨hf, hp, hdel⟩ := finished_of_deletions h.reachable hd
    have hpend := quitted_of_reach h hf
    cases m with
    | call op => exact absurd hf (call_frame hs).2.2.2.2.1
    | consumer => exact absurd hf (consumer_ne_finished hs)
    | timeout => rfl
    | setResult v | setException e =>
      obtain ⟨hpc, -⟩ := build_eq_some hs
      rw [hpc] at hp
      cases hp
    | completeProducer handle =>
      obtain ⟨hpc, -⟩ := completeProducer_eq_some hs
      rw [hpc.1] at hp
      cases hp
    | producer =>
      have hpr := (inv_of_reachable h.reachable).producer
      show s.producer.accesses = false
      cases hpc : s.producer with
      | callHandle | releaseSemaphore | tryResume | lockShared | dropShared | done => rfl
      | delete => exact absurd hpc hdel
      | onResultFinished p =>
        -- the producer holds the shared state, whose destructor has not run
        rw [hpc, hf] at hpr
        obtain ⟨-, hc | hc⟩ := hpr <;> cases hc
      | building | built | exchange => rw [hpc] at hp; cases hp
      | _ => rw [hpc] at hpend; cases hpend
  · simp only [ReleasesLast, Classical.not_imp, Bool.not_eq_false] at hm
    obtain ⟨rfl, hr, hpend⟩ := hm
    have hprod := (consumerStep_effect hs).producer
    refine ⟨by have := ((consumerStep_effect hs).releases hr).1; omega, ?_⟩
    show ∃ u, t.producerStep = some u ∧ t.producer.accesses = true
    rw [hprod]
    cases hpc : s.producer with
    | resume | resumeAwait | resumeWaitFor | resumeWhenAny | resumeShared | notify =>
      rw [hpc] at hprod
      simp [producerStep, hprod, ProducerPc.accesses]
    | _ => rw [hpc] at hpend; cases hpend

/-- A run within the condition: the waiting consumer is notified before it releases. -/
theorem no_access_after_release_of_notify :
    ∃ s : Protocol ℕ ℕ, Reach step IsInitial ReleasesLast s ∧ 0 < s.deletions ∧
      ∀ m t, s.step m = some t → s.accesses m = false := by
  let schedule : List (Move ℕ ℕ) := [.call .get, .consumer, .consumer, .setResult 7,
    .completeProducer none, .producer, .producer, .consumer, .consumer, .consumer, .consumer,
    .consumer]
  let s := lastState (restrict step ReleasesLast) initial schedule
  have h : Reach step IsInitial ReleasesLast s := .lastState (by rfl) schedule
  exact ⟨s, h, by decide, no_access_after_release.1 s h (by decide)⟩

/-- `get` sees `producer_done` in the loop of `wait` and releases the state; then the producer
calls `m_pc_state.notify_one()`. -/
theorem access_after_release :
    ∃ s : Protocol ℕ ℕ, Reachable s ∧ 0 < s.deletions ∧
      ∃ m t, s.step m = some t ∧ s.accesses m = true := by
  let schedule : List (Move ℕ ℕ) := [.call .get, .consumer, .consumer, .setResult 7,
    .completeProducer none, .producer, .consumer, .consumer, .consumer, .consumer, .consumer]
  let s := lastState step initial schedule
  have h : Reachable s := .lastState (by rfl) schedule
  exact ⟨s, h, by decide, .producer, _, rfl, rfl⟩

end Protocol
end Concurrencpp
