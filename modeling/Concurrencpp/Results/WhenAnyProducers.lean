import Concurrencpp.Results.WhenAnyInvariant

/-!
# The producers of a `when_any`

The invariant is preserved by the producers too.  Outside this context a producer's step changes
little that the invariant speaks of (`Inv.produceInput`).  Inside `try_resume` there are three ways
to return (`Inv.leave`): another result was first, the pointer is left for the coroutine to pick up,
or the coroutine was suspended and this producer has resumed it (`inv_casDone`, then the handle).
`inv_of_reachable` concludes.
-/

namespace Concurrencpp
namespace WhenAny

open Function (update_apply)

variable {α ε : Type} {n : ℕ} {s t : WhenAny α ε n} {pc : AwaiterPc} {p : Protocol α ε}

/-- The consumer of an input is between two calls, in `when_any`, or in `try_rewind_consumer`. -/
theorem InputOk.consumer_cases {i id : ℕ}
    (h : InputOk i id p pc) : (∃ last, p.consumer = .ready last) ∨
      (∃ pc', p.consumer = .whenAny pc') ∨ ∃ pc', p.consumer = .rewind pc' .ret := by
  have hun : Unrewound p → (∃ last, p.consumer = .ready last) ∨
      (∃ pc', p.consumer = .whenAny pc') ∨ ∃ pc', p.consumer = .rewind pc' .ret :=
    fun hu => hu.elim (fun hw => .inr (.inl ⟨_, hw⟩)) .inl
  cases pc with
  | check => exact hun h.unrewound_of_check
  | registering =>
    simp only [InputOk] at h
    split_ifs at h
    · exact hun (.inl h)
    · obtain ⟨pc', hc, -⟩ := h
      exact .inr (.inl ⟨pc', hc⟩)
    · exact .inl h.1
  | inlineLoad | inlineCas => exact hun h.1
  | finishCas | suspended => exact hun (.inl h)
  | completedResult => exact hun h
  | rewinding =>
    simp only [InputOk] at h
    split_ifs at h
    · exact .inl ⟨_, h⟩
    · exact h.elim hun fun hc => .inr (.inr hc)
    · exact hun h
  | returned => exact .inl ⟨_, h⟩

theorem InputOk.not_parked {i id : ℕ} (h : InputOk i id p pc) : ¬ Protocol.Parked p.consumer := by
  rcases h.consumer_cases with ⟨_, hc⟩ | ⟨_, hc⟩ | ⟨_, hc⟩ <;> rw [hc] <;> exact fun hp => hp

theorem InputOk.not_completing {i id : ℕ} (h : InputOk i id p pc) :
    p.consumer.completing = false := by
  rcases h.consumer_cases with ⟨_, hc⟩ | ⟨_, hc⟩ | ⟨_, hc⟩ <;> rw [hc] <;> rfl

/-- Where the consumer of an input stands depends on little of the input. -/
theorem InputOk.of_producer {i id : ℕ} {p q : Protocol α ε} (h : InputOk i id p pc)
    (hc : q.consumer = p.consumer) (hf : q.fresh = p.fresh)
    (hp : p.producer.published = true → q.producer.published = true) : InputOk i id q pc := by
  cases pc with
  | inlineLoad | inlineCas =>
    refine ⟨?_, fun he => hp (h.2 he)⟩
    simpa only [Unrewound, Waiting, hc] using h.1
  | _ =>
    simpa only [InputOk, Unrewound, Waiting, Untouched, Registering, hc, hf] using h

variable {i : Fin n}

/-- The producer of the input `i` takes a step of its own, outside this context. -/
theorem Inv.produceInput {q : Protocol α ε} {m : Move α ε} (h : Inv s)
    (hr : Protocol.Reachable (s.inputs i)) (hq : (s.inputs i).step m = some q)
    (hc : q.consumer = (s.inputs i).consumer) (hf : q.fresh = (s.inputs i).fresh)
    (hreg : q.registered = (s.inputs i).registered)
    (hnot : (s.inputs i).producer ≠ .tryResume (s.ids i))
    (hdone : (s.inputs i).registered = some (.whenAny (s.ids i)) → q.producer ≠ .done) :
    Inv (s.setInput i q) := by
  have hinputs : ∀ j, (s.setInput i q).inputs j = if j = i then q else s.inputs j :=
    fun j => update_apply ..
  have hpub : (s.inputs i).producer.published = true → q.producer.published = true :=
    fun hp => Protocol.published_step hp hq
  exact { h with
    point := fun j => by
      rw [hinputs]
      split_ifs with hj
      · subst hj; exact (h.point j).of_producer hc hf hpub
      · exact h.point j
    result := fun k hk => by
      obtain ⟨hkn, hp⟩ := h.result k hk
      refine ⟨hkn, ?_⟩
      rw [hinputs]
      split_ifs with hj
      · exact hpub (hj ▸ hp)
      · exact hp
    handle := fun j hj => by
      obtain ⟨hst, hsusp, hpc⟩ := h.handle j hj
      refine ⟨hst, hsusp, ?_⟩
      rw [hinputs]
      split_ifs with hji
      · exact absurd (hji ▸ hpc) hnot
      · exact hpc
    delivered := fun j hregj hdonej => by
      rw [hinputs] at hregj hdonej
      split_ifs at hregj hdonej with hji
      · subst hji
        exact absurd hdonej (hdone (hreg.symm.trans hregj))
      · exact h.delivered j hregj hdonej }

/-- `try_resume` returns, on a completed result; meanwhile the coroutine may have been resumed. -/
theorem Inv.leave {q : Protocol α ε} {c k : ℕ} (h : Inv s)
    (hpc : (s.inputs i).producer = .tryResume (s.ids i)) (hq : (s.inputs i).producerStep = some q)
    (hst : s.status = .completed k) (hpoint : ∀ j : Fin n, InputOk j (s.ids j) (s.inputs j) pc)
    (hstatus : StatusOk n s.status c pc)
    (hothers : pc = .suspended → s.awaiter = .suspended ∧ s.tries i ≠ .callHandle)
    (hothers' : s.awaiter = .suspended → pc ≠ .suspended → s.tries i = .callHandle) :
    Inv (({ s with awaiter := pc, continuations := c }.setInput i q).setTry i .returned) := by
  have hinputs : ∀ j, (({ s with awaiter := pc, continuations := c }.setInput i q).setTry i
      .returned).inputs j = if j = i then q else s.inputs j := fun j => update_apply ..
  have htries : ∀ j, (({ s with awaiter := pc, continuations := c }.setInput i q).setTry i
      .returned).tries j = if j = i then .returned else s.tries j := fun j => update_apply ..
  have hpub : q.producer.published = true := Protocol.published_step (by rw [hpc]; rfl)
    (show (s.inputs i).step .producer = some q from hq)
  -- nobody else is about to call the handle
  have hunique : ∀ j, s.tries j = .callHandle → s.tries i = .callHandle → j = i := fun j hj hi => by
    have := (h.handle j hj).1.symm.trans (h.handle i hi).1
    exact Fin.ext (WhenAnyStatus.completed.inj this)
  exact {
    point := fun j => by
      rw [hinputs]
      split_ifs with hj
      · subst hj
        exact (hpoint j).of_producer (Protocol.producerStep_consumer hq (hpoint j).not_parked)
          (Protocol.producerStep_effect hq).fresh fun _ => hpub
      · exact hpoint j
    status := hstatus
    result := fun k' hk' => by
      obtain ⟨hkn, hp⟩ := h.result k' hk'
      refine ⟨hkn, ?_⟩
      rw [hinputs]
      split_ifs
      · exact hpub
      · exact hp
    casDone := fun j hj => by
      rw [htries] at hj
      split_ifs at hj with hji
      exact h.casDone j hj
    handle := fun j hj => by
      rw [htries] at hj
      split_ifs at hj with hji
      obtain ⟨hst', hsusp, hpcj⟩ := h.handle j hj
      refine ⟨hst', ?_, ?_⟩
      · by_contra hne
        exact hji (hunique j hj (hothers' hsusp hne))
      · rw [hinputs, if_neg hji]
        exact hpcj
    resumer := fun hs => by
      obtain ⟨hsusp, hne⟩ := hothers hs
      rcases h.resumer hsusp with hd | ⟨j, hj⟩
      · exact .inl hd
      · refine .inr ⟨j, ?_⟩
        have hji : j ≠ i := fun he => hne (by rw [← he]; exact hj)
        rw [htries, if_neg hji]
        exact hj
    delivered := fun _ _ _ => ⟨k, hst⟩
    asserts := h.asserts }

/-- A producer inside `try_resume` goes on, without a write. -/
theorem Inv.setTry {pc : TryResumePc} (h : Inv s) (hne : s.tries i ≠ .callHandle)
    (hne' : pc ≠ .callHandle) (hcas : pc = .casDone → s.status ≠ .processing) :
    Inv (s.setTry i pc) := by
  have htries : ∀ j, (s.setTry i pc).tries j = if j = i then pc else s.tries j :=
    fun j => update_apply ..
  exact { h with
    casDone := fun j hj => by
      rw [htries] at hj
      split_ifs at hj with hji
      · exact hcas hj
      · exact h.casDone j hj
    handle := fun j hj => by
      rw [htries] at hj
      split_ifs at hj with hji
      · exact absurd hj hne'
      · exact h.handle j hj
    resumer := fun hs => (h.resumer hs).imp_right fun ⟨j, hj⟩ => by
      have hji : j ≠ i := fun he => hne (by rw [← he]; exact hj)
      exact ⟨j, by rw [htries, if_neg hji]; exact hj⟩ }

/-- `k_done_processing` means that the coroutine is suspended. -/
theorem StatusOk.suspended {c : ℕ} (h : StatusOk n .doneProcessing c pc) : pc = .suspended := by
  cases pc with
  | suspended => rfl
  | inlineLoad | inlineCas => exact absurd rfl h.2.1
  | completedResult => obtain ⟨⟨k, hk⟩, -⟩ := h; cases hk
  | rewinding | returned => obtain ⟨-, k, hk, -⟩ := h; cases hk
  | _ => exact absurd rfl h.1

/-- While `m_status` is `k_processing`, a producer may complete it. -/
theorem StatusOk.complete {c : ℕ} (h : StatusOk n .processing c pc) (i : ℕ) :
    pc ≠ .suspended ∧ StatusOk n (.completed i) c pc := by
  cases pc with
  | suspended => exact absurd rfl h.1
  | inlineLoad | inlineCas => exact ⟨nofun, h.1, nofun, h.2.2⟩
  | completedResult => obtain ⟨⟨k, hk⟩, -⟩ := h; cases hk
  | rewinding | returned => obtain ⟨-, k, hk, -⟩ := h; cases hk
  | _ => exact ⟨nofun, nofun, h.2⟩

/-- The compare-exchange from `k_done_processing`: this producer will call the handle. -/
theorem inv_casDone (h : Inv s) (hpc : (s.inputs i).producer = .tryResume (s.ids i))
    (hst : s.status = .doneProcessing) :
    Inv ((s.setStatus (.completed i)).setTry i .callHandle) := by
  have hstatus := h.status
  rw [hst] at hstatus
  have hsusp := hstatus.suspended
  rw [hsusp] at hstatus
  have htries : ∀ j, ((s.setStatus (.completed i)).setTry i .callHandle).tries j =
      if j = i then .callHandle else s.tries j := fun j => update_apply ..
  exact { h with
    status := by
      show StatusOk n (.completed i) s.continuations s.awaiter
      rw [hsusp]
      exact ⟨nofun, hstatus.2⟩
    result := fun k hk => by
      have hp : (s.inputs i).producer.published = true := by rw [hpc]; rfl
      cases hk
      exact ⟨i.2, hp⟩
    casDone := nofun
    handle := fun j hj => by
      rw [htries] at hj
      split_ifs at hj with hji
      · subst hji
        exact ⟨rfl, hsusp, hpc⟩
      · cases hst.symm.trans (h.handle j hj).1
    resumer := fun _ => .inr ⟨i, by rw [htries, if_pos rfl]⟩
    delivered := fun _ _ _ => ⟨i, rfl⟩ }

theorem inv_tryResumeStep (h : Inv s) (hpc : (s.inputs i).producer = .tryResume (s.ids i))
    (hs : s.tryResumeStep i = some t) : Inv t := by
  unfold tryResumeStep at hs
  split at hs
  case h_1 htry =>
    have hne : s.tries i ≠ .callHandle := by rw [htry]; nofun
    split at hs
    case h_1 k hst =>
      obtain ⟨q, hq, rfl⟩ := Option.map_eq_some_iff.1 hs
      exact h.leave hpc hq hst h.point h.status (fun hsusp => ⟨hsusp, hne⟩)
        fun hsusp hnot => absurd hsusp hnot
    case h_2 hst =>
      cases hs
      exact h.setTry hne nofun fun _ => by rw [hst]; nofun
    case h_3 hst =>
      cases hs
      exact h.setTry hne nofun nofun
  case h_2 htry =>
    have hne : s.tries i ≠ .callHandle := by rw [htry]; nofun
    split_ifs at hs with hst
    · cases hs
      exact inv_casDone h hpc hst
    · obtain ⟨k, hk⟩ := completed_of_ne hst (h.casDone i htry)
      obtain ⟨q, hq, rfl⟩ := Option.map_eq_some_iff.1 hs
      exact h.leave hpc hq hk h.point h.status (fun hsusp => ⟨hsusp, hne⟩)
        fun hsusp hnot => absurd hsusp hnot
  case h_3 htry =>
    have hne : s.tries i ≠ .callHandle := by rw [htry]; nofun
    split_ifs at hs with hst
    · -- the pointer is left behind for the coroutine to pick up
      have hstatus := h.status
      rw [hst] at hstatus
      obtain ⟨hsusp, hstatus'⟩ := hstatus.complete i
      have hdone := h.complete hsusp (by rw [hpc]; rfl) hstatus'
      obtain ⟨q, hq, rfl⟩ := Option.map_eq_some_iff.1 hs
      exact hdone.leave hpc hq rfl hdone.point hdone.status
        (fun hsusp' => absurd hsusp' hsusp) fun hsusp' => absurd hsusp' hsusp
    · cases hs
      exact h.setTry hne nofun nofun
  case h_4 htry =>
    obtain ⟨hst, hsusp, -⟩ := h.handle i htry
    obtain ⟨hpoint, hstatus⟩ := h.located hsusp
    rw [callHandle, if_pos hsusp] at hs
    obtain ⟨q, hq, rfl⟩ := Option.map_eq_some_iff.1 hs
    exact h.leave hpc hq hst (fun j => .inl (hpoint j))
      ⟨⟨i, hst⟩, congrArg (· + 1) hstatus.2⟩ nofun fun _ _ => htry
  case h_5 => cases hs

theorem inv_inputStep {m : Move α ε} (h : Inv s) (hr : ∀ j, Protocol.Reachable (s.inputs j))
    (hs : s.inputStep i m = some t) : Inv t := by
  have hinv := Protocol.inv_of_reachable (hr i)
  cases m with
  | call | consumer | timeout => cases hs
  | setResult | setException =>
    obtain ⟨q, hq, rfl⟩ := Option.map_eq_some_iff.1 hs
    have hbuild := hq
    obtain ⟨hpc, rfl⟩ := Protocol.build_eq_some hbuild
    exact h.produceInput (hr i) hq rfl rfl rfl (by rw [hpc]; simp) (by simp [Protocol.produce])
  | completeProducer =>
    obtain ⟨q, hq, rfl⟩ := Option.map_eq_some_iff.1 hs
    have hcomp := hq
    obtain ⟨hpc, rfl⟩ := Protocol.completeProducer_eq_some hcomp
    exact h.produceInput (hr i) hq rfl rfl rfl (by rw [hpc.1]; simp) (by simp [Protocol.produce])
  | producer =>
    simp only [inputStep] at hs
    split_ifs at hs with hpc
    · exact inv_tryResumeStep h hpc hs
    · obtain ⟨q, hq, rfl⟩ := Option.map_eq_some_iff.1 hs
      exact h.produceInput (m := .producer) (hr i) hq
        (Protocol.producerStep_consumer hq (h.point i).not_parked)
        (Protocol.producerStep_effect hq).fresh (Protocol.producerStep_effect hq).registered hpc
        fun hreg hdone => hpc (Protocol.tryResume_of_done hinv hq hreg hdone)

/-! ### Every interleaving -/

theorem inv_step {m : WhenAnyMove α ε n} (h : Inv s) (hr : ∀ j, Protocol.Reachable (s.inputs j))
    (hs : s.step m = some t) : Inv t := by
  cases m with
  | awaiter => exact inv_awaiterStep h hr hs
  | input => exact inv_inputStep h hr hs

theorem inv_of_reachable (h : Reachable s) : Inv s := by
  refine Interleaving.Reach.invariant_of_reach (fun _ => inv_initial) ?_ h
  exact fun _ _ _ hr hinv _ hs => inv_step hinv (input_reachable hr) hs

end WhenAny
end Concurrencpp
