import Concurrencpp.Results.Registration

/-!
# Who is woken by `complete_producer`

A consumer that blocks or suspends has registered a waiter by its compare-exchange
(`ConsumerPc.blockedOn`).  From the producer's exchange on, the registration is frozen
(`registered_step`), and `Delivery` follows it through `resume_consumer`:

* nobody is woken before the last stage of `complete_producer`, and when that is over `woken` is
  the registered waiter, once; the one exception is a shared state whose holders were all gone when
  the producer locked it;
* until then a suspended coroutine stays suspended, and the semaphore of a `wait_for` has as many
  permits as wake-ups.

`woken_exactly_once` collects this: no wake-up is lost, none is doubled, none comes too early, and a
consumer that found `producer_done` and never blocked is not woken.
-/

namespace Concurrencpp

open Interleaving
namespace Protocol

variable {α ε : Type} {s t : Protocol α ε}

/-! ### The wake-ups -/

/-- Whom the producer has woken at each of its program points. -/
def WokenOk (c : ConsumerPc) (reg : Option Waiter) (woken : List Waiter) : ProducerPc → Prop
  | .done => woken = reg.toList ∨
      woken = [] ∧ (∃ p, reg = some (.sharedState p)) ∧ c.holdsShared = false
  | .dropShared => woken = reg.toList
  | _ => woken = []

/-- What a blocked consumer can rely on. -/
def Pending (s : Protocol α ε) : Waiter → Prop
  | .coroutine _ => s.producer ≠ .done
  | .semaphore i => s.permits i = s.woken.count (.semaphore i)
  | _ => True

/-- The producer's wake-ups follow the registration. -/
structure Delivery (s : Protocol α ε) : Prop where
  woken : WokenOk s.consumer s.registered s.woken s.producer
  blocked : ∀ w, s.consumer.blockedOn = some w → Pending s w
  shared : ∀ p, .sharedState p ∈ s.woken → s.sharedStatus = s.state.producer.status

theorem delivery_initial : Delivery (initial : Protocol α ε) where
  woken := rfl
  blocked := nofun
  shared := nofun

/-- Before the exchange nobody is woken. -/
theorem WokenOk.eq_nil {c : ConsumerPc} {reg : Option Waiter} {woken : List Waiter}
    {pp : ProducerPc} (h : WokenOk c reg woken pp) (hp : pp.published = false) : woken = [] := by
  cases pp <;> first | exact h | cases hp

theorem WokenOk.of_consumer {c c' : ConsumerPc} {reg reg' : Option Waiter} {woken : List Waiter}
    {pp : ProducerPc} (h : WokenOk c reg woken pp) (hreg : pp.published = true → reg' = reg)
    (hc : ∀ p, reg = some (.sharedState p) → c'.holdsShared = true → c.holdsShared = true) :
    WokenOk c' reg' woken pp := by
  cases pp with
  | done =>
    rw [hreg rfl]
    refine h.imp_right fun ⟨hw, ⟨p, hp⟩, hh⟩ => ⟨hw, ⟨p, hp⟩, ?_⟩
    cases hh' : c'.holdsShared with
    | false => rfl
    | true => exact absurd (hc p hp hh') (by rw [hh]; decide)
  | dropShared => exact h.trans (by rw [hreg rfl])
  | _ => exact h

/-- A waiter that blocks before the producer's exchange finds nothing delivered yet. -/
theorem Delivery.pending_of_unpublished (h : Inv s) (hd : Delivery s)
    (hp : s.producer.published = false) (w : Waiter) : Pending s w := by
  cases w with
  | coroutine => exact fun hdone => by rw [hdone] at hp; cases hp
  | semaphore i =>
    show s.permits i = _
    rw [h.permits hp, hd.woken.eq_nil hp]
    rfl
  | _ => trivial

theorem delivery_consumerStep (h : Inv s) (hd : Delivery s) (hs : s.consumerStep = some t) :
    Delivery t := by
  obtain ⟨hprod, hwoken, hout, -⟩ := consumerStep_effect hs
  have heff := consumerStep_registration hs
  refine ⟨?_, fun w hw => ?_, fun p hp => ?_⟩
  · rw [hwoken, hprod]
    exact hd.woken.of_consumer (registered_step h (m := .consumer) hs).1 fun _ _ => heff.holdsShared
  · obtain ⟨hperm, hb | hi⟩ := heff.blocked w hw
    · have hpend := hd.blocked w hb
      cases w <;> simp only [Pending, hprod, hperm, hwoken] at hpend ⊢ <;> exact hpend
    · have hpend := hd.pending_of_unpublished h (h.unpublished_of_idle hi) w
      cases w <;> simp only [Pending, hprod, hperm, hwoken] at hpend ⊢ <;> exact hpend
  · rw [hwoken] at hp
    rw [hout]
    rcases heff.status with he | ⟨hpc, he⟩
    · rw [he, hd.shared p hp]
    · -- `share` found the result finished, so it stores the producer's status
      have hok := h.consumer
      rw [hpc] at hok
      rw [he, ResultState.status, if_neg (by rw [hok.2]; decide)]

/-- Inside `complete_producer`, before a wake-up. -/
theorem Delivery.advance (hd : Delivery s) (pp : ProducerPc) (hw : s.woken = []) (hne : pp ≠ .done)
    (hne' : pp ≠ .dropShared) : Delivery (s.produce pp) where
  woken := by
    show WokenOk s.consumer s.registered s.woken pp
    cases pp <;> first | exact hw | exact absurd rfl hne | exact absurd rfl hne'
  blocked := fun w hb => by
    have hpend := hd.blocked w hb
    cases w with
    | coroutine => exact hne
    | _ => exact hpend
  shared := hd.shared

/-- The end of `complete_producer` when nobody is registered. -/
theorem Delivery.leave (h : Inv s) (hd : Delivery s) (hw : s.woken = [])
    (hreg : s.registered = none) : Delivery (s.produce .done) where
  woken := .inl (by rw [show (s.produce .done).woken = _ from hw,
    show (s.produce .done).registered = _ from hreg]; rfl)
  blocked := fun w hb => by cases hreg.symm.trans (h.registered_of_blockedOn hb)
  shared := hd.shared

theorem delivery_exchangeStep (h : Inv s) (hd : Delivery s) (hpc : s.producer = .exchange) :
    Delivery s.exchangeStep := by
  have hok := h.consumer
  have hw : s.woken = [] := hd.woken.eq_nil (by rw [hpc]; rfl)
  rw [hpc] at hok
  unfold exchangeStep
  cases hst : s.state.pcState with
  | idle =>
    rw [hst] at hok
    exact { hd.leave h hw hok.of_idle with }
  | consumerSet => exact { hd.advance .resume hw nofun nofun with }
  | consumerWaiting => exact { hd.advance .notify hw nofun nofun with }
  | consumerDone => exact { hd.advance .delete hw nofun nofun with }
  | producerDone => exact absurd hst hok.ne_producerDone

theorem delivery_resumeStep (h : Inv s) (hd : Delivery s) (hpc : s.producer = .resume) :
    Delivery s.resumeStep := by
  have hpr := h.producer
  have hw := hd.woken
  rw [hpc] at hpr hw
  obtain ⟨w, hreg, hne, -⟩ := hpr
  have hctx := h.context w hreg
  unfold resumeStep
  cases w with
  | thread => exact absurd rfl hne
  | _ =>
    simp only [hctx, Waiter.context]
    exact hd.advance _ hw (by simp) (by simp)

theorem delivery_copyStep {pp : ProducerPc} (h : Inv s) (hd : Delivery s) (hpc : s.producer = pp)
    (hpp : pp = .resumeAwait ∨ pp = .resumeWaitFor ∨ pp = .resumeWhenAny ∨ pp = .resumeShared) :
    Delivery (s.copyStep pp) := by
  have hpr := h.producer
  have hw := hd.woken
  rw [hpc] at hpr hw
  unfold copyStep
  rcases hpp with rfl | rfl | rfl | rfl
  · obtain ⟨i, k, hreg, -⟩ := hpr
    simp only [h.context _ hreg, Waiter.context]
    exact { hd.advance (.callHandle i) hw (by simp) (by simp) with }
  all_goals
    obtain ⟨i, hreg⟩ := hpr
    simp only [h.context _ hreg, Waiter.context]
    exact hd.advance _ hw (by simp) (by simp)

/-- The last stage of `complete_producer`: the registered waiter is woken. -/
theorem delivery_wake {w : Waiter} (h : Inv s) (hreg : s.registered = some w) (hw : s.woken = [])
    (ht : t.producer = .done) (hreg' : t.registered = s.registered) (hw' : t.woken = s.woken ++ [w])
    (hns : ∀ p, w ≠ .sharedState p)
    (hb : ∀ w', t.consumer.blockedOn = some w' → s.consumer.blockedOn = some w')
    (hc : ∀ i, w = .coroutine i → t.consumer.blockedOn ≠ some w)
    (hp : ∀ i, w = .semaphore i → t.consumer.blockedOn = some w → t.permits i = 1) :
    Delivery t where
  woken := by
    rw [ht, hreg', hw', hw, hreg]
    exact .inl rfl
  blocked := fun w' hb' => by
    have he : w' = w := Option.some.inj ((h.registered_of_blockedOn (hb w' hb')).symm.trans hreg)
    subst he
    cases w' with
    | coroutine i => exact absurd hb' (hc i rfl)
    | semaphore i =>
      show t.permits i = _
      rw [hp i rfl hb', hw', hw]
      simp
    | _ => trivial
  shared := fun p hm => by
    rw [hw', hw] at hm
    exact absurd (List.mem_singleton.1 hm).symm (hns p)

theorem delivery_producerStep (h : Inv s) (hd : Delivery s) (hs : s.producerStep = some t) :
    Delivery t := by
  have hpr := h.producer
  have hw := hd.woken
  unfold producerStep at hs
  cases hpc : s.producer <;> simp only [hpc] at hs
  case building | built | done => cases hs
  case exchange =>
    cases hs
    exact delivery_exchangeStep h hd hpc
  case resume =>
    cases hs
    exact delivery_resumeStep h hd hpc
  case resumeAwait | resumeWaitFor | resumeWhenAny | resumeShared =>
    cases hs
    exact delivery_copyStep h hd hpc (by simp)
  case callHandle =>
    cases hs
    rw [hpc] at hpr hw
    obtain ⟨k, hreg, hk⟩ := hpr
    rw [resumeHandle_eq hk]
    -- the resumed coroutine goes on to a point where it is not blocked
    have hnext : (k.next .resolve).blockedOn = none := by cases k <;> rfl
    exact delivery_wake h hreg hw rfl rfl rfl nofun (fun w' hb => by cases hnext.symm.trans hb)
      (fun _ _ hb => by cases hnext.symm.trans hb) nofun
  case releaseSemaphore i =>
    cases hs
    rw [hpc] at hpr hw
    refine delivery_wake h hpr hw rfl rfl rfl nofun (fun _ hb => hb) nofun ?_
    rintro j ⟨⟩ hb
    have hz : s.permits i = s.woken.count (.semaphore i) := hd.blocked _ hb
    rw [show s.woken = [] from hw] at hz
    simp [hz]
  case tryResume | notify =>
    cases hs
    rw [hpc] at hpr hw
    exact delivery_wake h hpr hw rfl rfl rfl nofun (fun _ hb => hb) nofun nofun
  case lockShared p =>
    cases hs
    rw [hpc] at hpr hw
    split_ifs with hh
    · exact hd.advance _ hw nofun nofun
    · -- the holders are gone and nobody is left to wake
      refine ⟨.inr ⟨hw, ⟨p, hpr⟩, eq_false_of_ne_true hh⟩, fun w hb => ?_, hd.shared⟩
      cases hpr.symm.trans (h.registered_of_blockedOn hb)
      trivial
  case onResultFinished p =>
    cases hs
    rw [hpc] at hpr hw
    have hdone := done_of_sharing h (by rw [hpc]; rfl) hpr.2
    refine ⟨?_, fun w hb => ?_, fun _ _ => ?_⟩
    · show s.woken ++ [Waiter.sharedState p] = s.registered.toList
      rw [show s.woken = [] from hw, hpr.1]
      rfl
    · cases hpr.1.symm.trans (h.registered_of_blockedOn hb)
      trivial
    · show s.state.status = s.state.producer.status
      rw [ResultState.status, if_neg (by rw [hdone.2]; decide)]
  case dropShared =>
    cases hs
    rw [hpc] at hpr hw
    obtain ⟨⟨p, hreg⟩, -⟩ := hpr
    split_ifs with hdr
    · exact ⟨.inl hw, fun _ hb => (by cases hb), hd.shared⟩
    · refine ⟨.inl hw, fun w hb => ?_, hd.shared⟩
      cases hreg.symm.trans (h.registered_of_blockedOn hb)
      trivial
  case delete =>
    cases hs
    rw [hpc] at hpr hw
    exact { hd.leave h hw hpr.1 with }

theorem delivery_call {op : Op} (h : Inv s) (hd : Delivery s) (hs : s.call op = some t) :
    Delivery t := by
  unfold call at hs
  split at hs
  case h_1 hpc =>
    cases hs
    refine ⟨hd.woken.of_consumer (fun _ => rfl) fun p hreg => ?_, fun w hb => ?_, hd.shared⟩
    · -- a registered shared state has no result object beside it
      have hsh := h.shared p hreg
      rw [hpc] at hsh
      exact absurd hsh id
    · cases (Op.blockedOn_entry _).symm.trans hb
  case h_2 hpc =>
    split_ifs at hs
    cases hs
    exact { hd with }
  case h_3 hpc =>
    cases hs
    refine ⟨hd.woken.of_consumer (fun _ => rfl) fun _ _ _ => by rw [hpc]; rfl, fun w hb => ?_,
      hd.shared⟩
    have hnone : ConsumerPc.blockedOn
        (if s.producer.holdsShared then .share .dropped else .rewind .load .complete) = none := by
      split_ifs <;> rfl
    cases hnone.symm.trans hb
  case h_4 => cases hs

theorem delivery_step {m : Move α ε} (h : Inv s) (hd : Delivery s) (hs : s.step m = some t) :
    Delivery t := by
  cases m with
  | call => exact delivery_call h hd hs
  | consumer => exact delivery_consumerStep h hd hs
  | timeout =>
    obtain ⟨i, -, rfl⟩ := timeout_eq_some hs
    refine ⟨hd.woken.of_consumer (fun _ => rfl) fun _ _ hh => ?_, fun w hw => ?_, hd.shared⟩
    · cases hh
    · cases hw
  | setResult | setException =>
    obtain ⟨hpc, rfl⟩ := build_eq_some hs
    have hw : s.woken = [] := hd.woken.eq_nil (by rw [hpc]; rfl)
    exact { hd.advance .built hw (by simp) (by simp) with
      shared := fun p hm => by
        have hm' : Waiter.sharedState p ∈ s.woken := hm
        rw [hw] at hm'
        cases hm' }
  | completeProducer =>
    obtain ⟨hpc, rfl⟩ := completeProducer_eq_some hs
    have hw : s.woken = [] := hd.woken.eq_nil (by rw [hpc.1]; rfl)
    exact { hd.advance .exchange hw (by simp) (by simp) with }
  | producer => exact delivery_producerStep h hd hs

theorem delivery_of_reachable (h : Reachable s) : Delivery s := by
  refine Reach.invariant_of_reach ?_ ?_ h
  · rintro _ rfl
    exact delivery_initial
  · exact fun _ _ _ hr hd _ hs => delivery_step (inv_of_reachable hr) hd hs

/-! ### The single consumer -/

/-- The consumer begins a call only on a fresh result or after a timed-out `wait_for`; the holders
of a shared result are free. -/
def SingleCall (s : Protocol α ε) (m : Move α ε) : Prop :=
  ∀ op, m = .call op → s.consumer = .ready none ∨ s.consumer = .ready (some (.waitFor .idle)) ∨
    s.consumer = .share .sharing

/-- The holders of a shared result begin no call on the result state. -/
theorem sharing_call {op : Op} (hc : s.consumer = .share .sharing) (hs : s.call op = some t) :
    t.consumer.firstLoad = false := by
  unfold call at hs
  rw [hc] at hs
  cases op with
  | get =>
    simp only at hs
    split_ifs at hs
    cases hs
    rw [show s.assertDone.consumer = _ from hc]
    rfl
  | destroy =>
    cases hs
    show ConsumerPc.firstLoad (ite _ _ _) = false
    split_ifs <;> rfl
  | _ => cases hs

/-- In such runs nothing is registered when a call begins. -/
theorem registered_of_firstLoad (h : Reach step IsInitial SingleCall s)
    (hf : s.consumer.firstLoad = true) : s.registered = none := by
  induction h with
  | start hs =>
    cases hs
    cases hf
  | @next _ _ m hr hm hs ih =>
    have hok := (inv_of_reachable hr.reachable).consumer
    cases m with
    | call op =>
      rw [(call_frame hs).2.2.1]
      rcases hm op rfl with hc | hc | hc
      · rw [hc] at hok
        exact hok.2 (.inl rfl)
      · rw [hc] at hok
        exact hok.2 (.inr rfl)
      · cases (sharing_call hc hs).symm.trans hf
    | consumer => cases (consumerStep_registration hs).firstLoad.symm.trans hf
    | timeout =>
      simp only [step, timeout] at hs
      split at hs <;> cases hs
      cases hf
    | setResult | setException =>
      obtain ⟨-, rfl⟩ := build_eq_some hs
      exact ih hf
    | completeProducer =>
      obtain ⟨-, rfl⟩ := completeProducer_eq_some hs
      exact ih hf
    | producer =>
      have heff := producerStep_effect hs
      rw [heff.registered]
      -- the producer begins no call of the consumer
      rcases heff.consumer with hc | ⟨-, -, hc⟩ | ⟨i, k, -, -, hc⟩
      · exact ih (hc ▸ hf)
      · cases hc ▸ hf
      · cases k <;> cases hc ▸ hf

/-- What `w` gets from its wake-up: the loop of `wait` sees `producer_done`, the coroutine has been
resumed, the semaphore has been released once, the shared state has the producer's status. -/
def Awake (s : Protocol α ε) : Waiter → Prop
  | .thread => s.consumer.blockedOn = some .thread → s.state.pcState = .producerDone
  | .coroutine h => s.consumer.blockedOn ≠ some (.coroutine h)
  | .semaphore i => s.consumer.blockedOn = some (.semaphore i) → s.permits i = 1
  | .whenAny _ => True
  | .sharedState p => .sharedState p ∈ s.woken → s.sharedStatus = s.state.producer.status

theorem awake_of_done {w : Waiter} (h : Inv s) (hd : Delivery s) (hreg : s.registered = some w)
    (hp : s.producer = .done) : Awake s w := by
  cases w with
  | thread =>
    intro hb
    have hok := h.consumer
    rw [hp] at hok
    cases hc : s.consumer with
    | wait pc =>
      rw [hc] at hok hb
      cases pc with
      | loop | block => exact hok.1
      | _ => cases hb
    | await pc | waitFor pc => rw [hc] at hb; cases pc <;> cases hb
    | _ => rw [hc] at hb; cases hb
  | coroutine => exact fun hb => hd.blocked _ hb hp
  | semaphore i =>
    intro hb
    have hw := hd.woken
    rw [hp, hreg] at hw
    have hw' : s.woken = [.semaphore i] := by
      rcases hw with hw | ⟨-, ⟨p, hp⟩, -⟩
      · exact hw
      · cases hp
    have hperm : s.permits i = s.woken.count (.semaphore i) := hd.blocked _ hb
    rw [hperm, hw']
    simp
  | whenAny => trivial
  | sharedState p => exact hd.shared p

/-- Past the exchange, nobody is woken without a registration. -/
theorem Delivery.woken_eq_nil (hd : Delivery s) (hreg : s.registered = none) : s.woken = [] := by
  have hok := hd.woken
  rw [hreg] at hok
  cases hpc : s.producer with
  | done => rw [hpc] at hok; exact hok.elim id And.left
  | _ => rw [hpc] at hok; exact hok

/-- **Exactly-once wake-up.**  A blocked or suspended consumer is registered, and only a timeout or
a rewind takes a registration back.  Once `complete_producer` is over, a registered waiter has been
woken, once, and nobody else; a shared state none of whose holders was left is not.  A consumer
whose first load or compare-exchange found `producer_done` is never woken.  Nobody is woken before
the outcome has been built. -/
theorem woken_exactly_once (h : Reachable s) :
    (∀ w, s.consumer.blockedOn = some w → s.registered = some w) ∧
    (∀ w t, s.consumer.publishes = some w → s.state.pcState = .idle → s.step .consumer = some t →
      t.registered = some w) ∧
    (∀ w m t, s.registered = some w → s.step m = some t → t.registered = some w ∨
      m = .consumer ∧ s.consumer.takesBack = true ∧ s.producer.published = false) ∧
    (∀ w, s.registered = some w → s.producer = .done → Awake s w ∧
      (s.woken = [w] ∨
        s.woken = [] ∧ (∃ p, w = .sharedState p) ∧ s.consumer.holdsShared = false)) ∧
    (s.producer = .done → s.registered = none → s.woken = []) ∧
    (Reach step IsInitial SingleCall s →
      s.consumer.firstLoad = true ∨ s.consumer.publishes ≠ none →
      s.state.pcState = .producerDone →
      ∀ ms u, run step s ms = some u → u.woken = []) ∧
    (s.woken ≠ [] → s.state.producer ≠ .idle) := by
  have hi := inv_of_reachable h
  have hd := delivery_of_reachable h
  refine ⟨fun w => hi.registered_of_blockedOn, fun w t hw hidle hs => ?_, fun w m t hw hs => ?_,
    fun w hw hp => ⟨awake_of_done hi hd hw hp, ?_⟩, fun _ hreg => hd.woken_eq_nil hreg,
    fun hr hpc hst ms u hu => ?_, fun hne => hi.built fun hpc => hne ?_⟩
  · exact (consumerStep_registration hs).registers w hw hidle
  · exact ((registered_step hi hs).2 w hw).imp_right fun ⟨hm, htb, hp, _⟩ => ⟨hm, htb, hp⟩
  · have hok := hd.woken
    rw [hp, hw] at hok
    exact hok.imp_right fun ⟨hnil, ⟨p, hreg⟩, hh⟩ => ⟨hnil, ⟨p, Option.some.inj hreg⟩, hh⟩
  · have hreg : s.registered = none := by
      rcases hpc with hf | hpub
      · exact registered_of_firstLoad hr hf
      · obtain ⟨w, hw⟩ := Option.ne_none_iff_exists'.1 hpub
        exact hi.registered_of_publishes hw
    have hp : s.producer.published = true := by
      cases hp : s.producer.published with
      | true => rfl
      | false =>
        have hok := hi.consumer
        rw [hp] at hok
        exact absurd hst hok.ne_producerDone
    obtain ⟨hur, -, hreg'⟩ := registered_run h hp hu
    exact (delivery_of_reachable hur).woken_eq_nil (hreg'.trans hreg)
  · exact hd.woken.eq_nil (by rw [hpc]; rfl)

/-- A coroutine that awaits after a timed-out `wait_for`, and is resumed by the producer. -/
theorem woken_exactly_once_of_await :
    ∃ s : Protocol ℕ ℕ, Reachable s ∧ s.registered = some (.coroutine 1) ∧ s.producer = .done ∧
      s.woken = [.coroutine 1] := by
  let schedule : List (Move ℕ ℕ) := [.call .waitFor, .consumer, .consumer, .consumer, .timeout,
    .consumer, .consumer, .call .resolve, .consumer, .consumer, .consumer, .setResult 7,
    .completeProducer none, .producer, .producer, .producer, .producer]
  let s := lastState step initial schedule
  have h : Reachable s := .lastState (by rfl) schedule
  refine ⟨s, h, rfl, rfl, ?_⟩
  obtain ⟨-, hw | ⟨-, ⟨p, hp⟩, -⟩⟩ := (woken_exactly_once h).2.2.2.1 (.coroutine 1) rfl rfl
  · exact hw
  · cases hp

end Protocol
end Concurrencpp
