import Concurrencpp.Results.ConsumerSteps

/-!
# The producer's steps preserve the representation invariant

The exchange of `complete_producer` turns every fact about the cell before it into the one after it
(`ConsumerOk.publish`), and the value that it replaces tells the producer what is registered
(`ConsumerOk.unpublished`).  From there on the registration is frozen, so each
branch of `resume_consumer` finds the context that it expects.  `inv_of_reachable` concludes.
-/

namespace Concurrencpp
namespace Protocol

variable {α ε : Type}

section

variable {st : PcState} {ctx : ConsumerContext} {reg : Option Waiter} {pc : ConsumerPc}

/-- The exchange of `complete_producer` agrees with every program point of the consumer. -/
theorem ConsumerOk.publish (h : ConsumerOk false st ctx reg pc) :
    ConsumerOk true .producerDone ctx reg pc := by
  have hquiet : Quiet true .producerDone ctx reg := ⟨rfl, nofun⟩
  cases pc with
  | ready => exact ⟨hquiet, h.2⟩
  | status => exact hquiet
  | wait pc =>
    cases pc with
    | load => exact hquiet
    | cas | loop | block => exact ⟨rfl, h.2⟩
    | assertDone => exact ⟨rfl, rfl⟩
  | await pc =>
    cases pc with
    | load => exact hquiet
    | set | cas | suspended => exact ⟨rfl, h.2⟩
    | assertDone => exact ⟨rfl, rfl⟩
  | waitFor pc =>
    cases pc with
    | load => exact hquiet
    | sync | assertDone => exact ⟨rfl, rfl⟩
    | _ => exact ⟨rfl, h.2⟩
  | whenAny pc =>
    cases pc with
    | load => exact hquiet
    | set | cas => exact ⟨rfl, h.2⟩
    | assertDone => exact ⟨rfl, rfl⟩
    | pending => exact ⟨rfl, nofun⟩
  | rewind pc =>
    cases pc with
    | load => exact .inr hquiet
    | cas => exact ⟨rfl, nofun⟩
    | assertDone => exact ⟨rfl, rfl⟩
    | clear => exact ⟨rfl, h.2⟩
  | share pc =>
    cases pc with
    | load => exact hquiet
    | set | cas => exact ⟨rfl, h.2⟩
    | sharing => exact ⟨rfl, nofun⟩
    | _ => exact ⟨rfl, rfl⟩
  | joined => exact ⟨rfl, rfl⟩
  | complete pc =>
    cases pc with
    | load | exchange => exact hquiet
    | delete => exact ⟨rfl, .inl rfl⟩
  | finished => exact ⟨nofun, fun _ => .inl rfl⟩

end

section

variable {s t : Protocol α ε}

/-- A step of the producer that only moves it. -/
theorem Inv.produce {q : ProducerPc} (h : Inv s) (pp : ProducerPc) (hpc : s.producer = q)
    (hp : pp.published = q.published) (hq : q ≠ .building)
    (hok : ProducerOk s.consumer s.registered pp) : Inv (s.produce pp) := by
  subst hpc
  exact { h with
    consumer := by
      show ConsumerOk pp.published _ _ _ _
      rw [hp]
      exact h.consumer
    producer := hok
    finished := fun hs => hp.trans (h.finished hs)
    permits := fun hf => h.permits (hp.symm.trans hf)
    built := fun _ => h.built hq }

/-- The exchange, with what the producer then relies on. -/
theorem Inv.publish {pp : ProducerPc} (h : Inv s) (hpc : s.producer = .exchange)
    (hpp : pp.published = true) (hok : ProducerOk s.consumer s.registered pp) :
    Inv ((s.setPcState .producerDone).produce pp) :=
  { h with
    consumer := by
      have hc := h.consumer
      rw [hpc] at hc
      show ConsumerOk pp.published _ _ _ _
      rw [hpp]
      exact ConsumerOk.publish hc
    producer := hok
    finished := fun _ => hpp
    permits := fun hf => absurd (hpp.symm.trans hf) (by decide)
    built := fun _ => h.built (by rw [hpc]; nofun) }

theorem inv_exchangeStep (h : Inv s) (hpc : s.producer = .exchange) : Inv s.exchangeStep := by
  have hp : s.producer.published = false := by rw [hpc]; rfl
  have hok := h.consumer
  rw [hp] at hok
  have hne := hok.ne_producerDone
  have hc : Inv (s.check (s.state.pcState ≠ .producerDone)) := h.check (by simp [hne])
  unfold exchangeStep
  cases hst : s.state.pcState with
  | idle =>
    simp only [hst] at hc
    exact hc.publish hpc rfl trivial
  | consumerSet =>
    simp only [hst] at hc
    exact hc.publish hpc rfl (hst ▸ hok).of_consumerSet
  | consumerWaiting =>
    simp only [hst] at hc
    exact hc.publish hpc rfl (hst ▸ hok).of_consumerWaiting
  | consumerDone =>
    simp only [hst] at hc
    exact hc.publish hpc rfl (hst ▸ hok).of_consumerDone
  | producerDone => exact absurd hst hne

/-- The switch of `resume_consumer` takes the branch of the registered waiter. -/
theorem inv_resumeStep (h : Inv s) (hpc : s.producer = .resume) : Inv s.resumeStep := by
  have hpr := h.producer
  rw [hpc] at hpr
  obtain ⟨w, hw, hne, hk⟩ := hpr
  have hctx := h.context w hw
  unfold resumeStep
  cases w with
  | thread => exact absurd rfl hne
  | coroutine i =>
    obtain ⟨k, hk⟩ := hk i rfl
    simp only [hctx, Waiter.context]
    exact h.produce _ hpc rfl nofun ⟨i, k, hw, hk⟩
  | semaphore i | whenAny i | sharedState i =>
    simp only [hctx, Waiter.context]
    exact h.produce _ hpc rfl nofun ⟨i, hw⟩

/-- Each branch of `resume_consumer` finds the member of the union that it copies. -/
theorem inv_copyStep {pp : ProducerPc} (h : Inv s) (hpc : s.producer = pp)
    (hpp : pp = .resumeAwait ∨ pp = .resumeWaitFor ∨ pp = .resumeWhenAny ∨ pp = .resumeShared) :
    Inv (s.copyStep pp) := by
  have hpr := h.producer
  rw [hpc] at hpr
  unfold copyStep
  rcases hpp with rfl | rfl | rfl | rfl
  · obtain ⟨i, k, hw, hk⟩ := hpr
    have hsusp : s.isSuspended i = true := by simp [isSuspended, hk]
    simp only [h.context _ hw, Waiter.context]
    exact (h.check hsusp).produce _ hpc rfl nofun ⟨k, hw, hk⟩
  -- The other members need nothing of the consumer.
  all_goals
    obtain ⟨i, hw⟩ := hpr
    simp only [h.context _ hw, Waiter.context]
    exact h.produce _ hpc rfl nofun hw

/-- The handle that the producer invokes is the one of the suspended consumer. -/
theorem resumeHandle_eq {i : ℕ} {k : AfterWait} (hk : s.consumer = .await (.suspended i) k) :
    s.resumeHandle i = s.goto (k.next .resolve) := by
  simp [resumeHandle, hk]

theorem inv_callHandle {i : ℕ} (h : Inv s) (hpc : s.producer = .callHandle i) :
    Inv (((s.resumeHandle i).wake (.coroutine i)).produce .done) := by
  have hok := h.consumer
  have hpr := h.producer
  rw [hpc] at hpr
  obtain ⟨k, hw, hk⟩ := hpr
  have hp : s.producer.published = true := by rw [hpc]; rfl
  rw [hk, hp] at hok
  rw [resumeHandle_eq hk]
  exact { h with
    consumer := consumerOk_afterWait ⟨rfl, hok.1⟩ k nofun
    producer := trivial
    shared := fun p hs => by cases hw.symm.trans hs
    finished := fun _ => rfl
    permits := nofun
    built := fun _ => h.built (by rw [hpc]; nofun) }

/-- The holder is alive, so the producer's lock finds the shared state in use. -/
theorem sharing_of_holdsShared {p : ℕ} (h : Inv s) (hw : s.registered = some (.sharedState p))
    (hh : s.consumer.holdsShared = true) : s.consumer = .share .sharing := by
  have hsh := h.shared p hw
  cases hc : s.consumer with
  | share pc =>
    rw [hc] at hsh hh
    cases pc with
    | sharing => rfl
    | dropped => cases hh
    | _ => exact absurd hsh id
  | _ => rw [hc] at hh; cases hh

theorem inv_lockShared {p : ℕ} (h : Inv s) (hpc : s.producer = .lockShared p) :
    Inv (s.produce (if s.consumer.holdsShared then .onResultFinished p else .done)) := by
  have hpr := h.producer
  rw [hpc] at hpr
  split_ifs with hh
  · exact h.produce _ hpc rfl nofun ⟨hpr, .inl (sharing_of_holdsShared h hpr hh)⟩
  · exact h.produce _ hpc rfl nofun trivial

/-- The shared state is alive while the producer works on it, and its result is finished. -/
theorem done_of_sharing (h : Inv s) (hp : s.producer.published = true)
    (hc : s.consumer = .share .sharing ∨ s.consumer = .share .dropped) :
    Done s.producer.published s.state.pcState := by
  have hok := h.consumer
  rcases hc with hc | hc
  · rw [hc] at hok
    exact ⟨hp, by rw [hok.1, hp]; rfl⟩
  · rw [hc] at hok
    exact hok

theorem inv_dropShared (h : Inv s) (hpc : s.producer = .dropShared) :
    Inv ((if s.consumer = .share .dropped then s.goto (.rewind .load .complete) else s).produce
      .done) := by
  split_ifs with hd
  · have hok := h.consumer
    rw [hd] at hok
    exact { h with
      consumer := .inl ⟨hok.2, nofun⟩
      producer := trivial
      shared := fun _ _ => trivial
      finished := fun _ => rfl
      permits := nofun
      built := fun _ => h.built (by rw [hpc]; nofun) }
  · exact h.produce _ hpc rfl nofun trivial

theorem inv_producerStep (h : Inv s) (hs : s.producerStep = some t) : Inv t := by
  have hpr := h.producer
  unfold producerStep at hs
  cases hpc : s.producer <;> simp only [hpc] at hs
  case building | built | done => cases hs
  case exchange =>
    cases hs
    exact inv_exchangeStep h hpc
  case resume =>
    cases hs
    exact inv_resumeStep h hpc
  case resumeAwait | resumeWaitFor | resumeWhenAny | resumeShared =>
    cases hs
    exact inv_copyStep h hpc (by simp)
  case callHandle =>
    cases hs
    exact inv_callHandle h hpc
  case releaseSemaphore =>
    cases hs
    exact { h.produce .done hpc rfl nofun trivial with permits := nofun }
  case tryResume | notify =>
    cases hs
    exact { h.produce .done hpc rfl nofun trivial with }
  case lockShared =>
    cases hs
    exact inv_lockShared h hpc
  case onResultFinished p =>
    cases hs
    rw [hpc] at hpr
    have hd := done_of_sharing h (by rw [hpc]; rfl) hpr.2
    have hf := (h.onResultFinished hd).produce .dropShared hpc rfl nofun ⟨⟨p, hpr.1⟩, hpr.2⟩
    exact { hf with }
  case dropShared =>
    cases hs
    exact inv_dropShared h hpc
  case delete =>
    cases hs
    exact h.deleteSelf.produce _ hpc rfl nofun trivial

theorem inv_build {outcome : ProducerContext α ε} (h : Inv s) (hs : s.build outcome = some t)
    (ho : outcome ≠ .idle) : Inv t := by
  have hok := h.consumer
  have hpub := h.permits
  obtain ⟨hpc, rfl⟩ := build_eq_some hs
  rw [hpc] at hok hpub
  exact { h with
    consumer := hok
    producer := trivial
    finished := fun hf => absurd (h.finished hf) (by rw [hpc]; decide)
    permits := hpub
    built := fun _ => ho }

theorem inv_completeProducer {handle : Option CoroutineHandle} (h : Inv s)
    (hs : s.completeProducer handle = some t) : Inv t := by
  obtain ⟨hpc, rfl⟩ := completeProducer_eq_some hs
  exact { h.produce .exchange hpc.1 rfl nofun trivial with handle := hpc.2 }

/-! ### Every interleaving -/

theorem inv_step {m : Move α ε} (h : Inv s) (hs : s.step m = some t) : Inv t := by
  cases m with
  | call => exact inv_call h hs
  | consumer => exact inv_consumerStep h hs
  | timeout => exact inv_timeout h hs
  | setResult | setException => exact inv_build h hs nofun
  | completeProducer => exact inv_completeProducer h hs
  | producer => exact inv_producerStep h hs

/-- **The representation invariant holds in every state that some interleaving reaches.** -/
theorem inv_of_reachable (h : Reachable s) : Inv s := by
  refine Interleaving.Reach.invariant ?_ ?_ h
  · rintro _ rfl
    exact inv_initial
  · exact fun _ _ _ hinv _ hs => inv_step hinv hs

end

end Protocol
end Concurrencpp
