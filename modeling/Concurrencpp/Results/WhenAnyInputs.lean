import Concurrencpp.Results.WhenAny

/-!
# The inputs of `when_any`

What `when_any` needs to know of one input (`registered_ne_fresh`, `producerStep_consumer`,
`tryResume_of_done`, `pcState_of_published`), and the refinement between the two levels: a step of
`when_any` leaves an input alone or is one of the input's own steps (`step_input`), so that every
input of a running `when_any` is a reachable `Protocol` (`input_reachable`) and keeps its invariant.
-/

namespace Concurrencpp

/-! ### What `when_any` needs to know of an input -/

namespace Protocol

variable {α ε : Type} {s t : Protocol α ε}

/-- The names of stored contexts are not used again. -/
def FreshOk (s : Protocol α ε) : Prop := ∀ c, s.state.consumer = .whenAny c → c < s.fresh

theorem freshOk_of_reachable (h : Reachable s) : FreshOk s := by
  refine Interleaving.Reach.invariant ?_ ?_ h
  · rintro _ rfl
    exact nofun
  · intro s m t hf _ hs
    cases m with
    | call =>
      simp only [step, call] at hs
      split at hs
      case h_2 => split_ifs at hs; cases hs; exact hf
      all_goals cases hs
      all_goals exact hf
    | consumer =>
      obtain ⟨hle, hfresh⟩ := (consumerStep_effect hs).fresh
      exact fun c hc => (hfresh c hc).elim (fun hc => (hf c hc).trans_le hle) id
    | timeout =>
      obtain ⟨i, -, rfl⟩ := timeout_eq_some hs
      exact hf
    | setResult | setException =>
      obtain ⟨-, rfl⟩ := build_eq_some hs
      exact hf
    | completeProducer =>
      obtain ⟨-, rfl⟩ := completeProducer_eq_some hs
      exact hf
    | producer =>
      have heff := producerStep_effect hs
      intro c hc
      rw [heff.context] at hc
      rw [heff.fresh]
      exact hf c hc

/-- The name that the next stored context will get is registered nowhere. -/
theorem registered_ne_fresh (h : Reachable s) : s.registered ≠ some (.whenAny s.fresh) := by
  intro hreg
  exact lt_irrefl _ (freshOk_of_reachable h _ ((inv_of_reachable h).context _ hreg))

/-- A step of the producer leaves a consumer alone that is not parked. -/
theorem producerStep_consumer (hs : s.producerStep = some t) (hc : ¬ Parked s.consumer) :
    t.consumer = s.consumer := by
  rcases (producerStep_effect hs).consumer with h | ⟨-, hp, -⟩ | ⟨i, k, -, hp, -⟩
  · exact h
  · exact absurd (hp ▸ trivial) hc
  · exact absurd (hp ▸ trivial) hc

/-- A producer that served a `when_any` context has come through `try_resume`. -/
theorem tryResume_of_done {c : ℕ} (h : Inv s) (hs : s.producerStep = some t)
    (hreg : s.registered = some (.whenAny c)) (hd : t.producer = .done) :
    s.producer = .tryResume c := by
  have hpr := h.producer
  have hctx := h.context _ hreg
  cases hpc : s.producer with
  | building | built | done => simp [producerStep, hpc] at hs
  | exchange =>
    have hok := h.consumer
    simp only [producerStep, hpc, exchangeStep] at hs
    cases hs
    rw [hpc] at hok
    cases hst : s.state.pcState with
    | idle =>
      rw [hst] at hok
      cases hreg.symm.trans hok.of_idle
    | producerDone => exact absurd hst hok.ne_producerDone
    | _ => rw [hst] at hd; cases hd
  | resume =>
    simp only [producerStep, hpc, resumeStep, hctx, Waiter.context] at hs
    cases hs
    cases hd
  | resumeWhenAny =>
    simp only [producerStep, hpc, copyStep, hctx, Waiter.context] at hs
    cases hs
    cases hd
  | onResultFinished =>
    simp only [producerStep, hpc] at hs
    cases hs
    cases hd
  | tryResume =>
    rw [hpc] at hpr
    cases hpr.symm.trans hreg
    rfl
  | resumeAwait => rw [hpc] at hpr; obtain ⟨i, k, hw, -⟩ := hpr; cases hw.symm.trans hreg
  | callHandle => rw [hpc] at hpr; obtain ⟨k, hw, -⟩ := hpr; cases hw.symm.trans hreg
  | resumeWaitFor | resumeShared => rw [hpc] at hpr; obtain ⟨i, hw⟩ := hpr; cases hw.symm.trans hreg
  | dropShared => rw [hpc] at hpr; obtain ⟨⟨p, hw⟩, -⟩ := hpr; cases hw.symm.trans hreg
  | delete => rw [hpc] at hpr; cases hpr.1.symm.trans hreg
  | _ => rw [hpc] at hpr; cases hpr.symm.trans hreg

/-- A finished result that its consumer has not given up is `producer_done`. -/
theorem pcState_of_published (h : Inv s) (hp : s.producer.published = true)
    (hc : s.consumer.completing = false) : s.state.pcState = .producerDone := by
  have hok := h.consumer
  rw [hp] at hok
  rcases hok.of_published with hst | ⟨-, hcomp⟩
  · exact hst
  · cases hc.symm.trans hcomp

end Protocol

namespace WhenAny

variable {α ε : Type} {n : ℕ} {s t : WhenAny α ε n}

/-! ### The inputs -/

@[simp] theorem setInput_same (i : Fin n) (p : Protocol α ε) : (s.setInput i p).inputs i = p :=
  Function.update_self ..

theorem setInput_of_ne {i j : Fin n} (p : Protocol α ε) (h : j ≠ i) :
    (s.setInput i p).inputs j = s.inputs j :=
  Function.update_of_ne h ..

theorem input_of_setInput {i : Fin n} {q : Protocol α ε} {m : Move α ε}
    (hq : (s.inputs i).step m = some q) (j : Fin n) :
    (s.setInput i q).inputs j = s.inputs j ∨
      ∃ m', (s.inputs j).step m' = some ((s.setInput i q).inputs j) := by
  by_cases hj : j = i
  · subst hj
    exact .inr ⟨m, by rw [setInput_same, hq]⟩
  · exact .inl (setInput_of_ne q hj)

theorem input_of_awaiterStep (hs : s.awaiterStep = some t) (j : Fin n) :
    t.inputs j = s.inputs j ∨ ∃ m', (s.inputs j).step m' = some (t.inputs j) := by
  unfold awaiterStep at hs
  split at hs
  case h_1 i hpc =>
    simp only [checkStep] at hs
    split_ifs at hs with hi hst
    · obtain ⟨q, hq, rfl⟩ := Option.map_eq_some_iff.1 hs
      exact input_of_setInput (m := .call .whenAny) hq j
    · cases hs; exact .inl rfl
    · cases hs; exact .inl rfl
  case h_2 i state hpc =>
    unfold registerStep at hs
    split at hs
    · obtain ⟨q, hq, rfl⟩ := Option.map_eq_some_iff.1 hs
      exact input_of_setInput (m := .consumer) hq j
    · cases hs
  case h_3 i hpc =>
    cases hs
    refine .inl ?_
    unfold inlineLoadStep
    split_ifs <;> rfl
  case h_4 i hpc =>
    cases hs
    refine .inl ?_
    unfold inlineCasStep
    split_ifs <;> rfl
  case h_5 hpc =>
    cases hs
    refine .inl ?_
    unfold finishStep
    split_ifs <;> rfl
  case h_6 => cases hs
  case h_7 => cases hs; exact .inl rfl
  case h_8 i completed index hpc =>
    unfold rewindStep at hs
    split at hs
    · split at hs
      · obtain ⟨q, hq, rfl⟩ := Option.map_eq_some_iff.1 hs
        exact input_of_setInput (m := .call .tryRewind) hq j
      · obtain ⟨q, hq, rfl⟩ := Option.map_eq_some_iff.1 hs
        exact input_of_setInput (m := .consumer) hq j
    · cases hs; exact .inl rfl
  case h_9 => cases hs

/-- Inside `try_resume` the producer goes on or returns; meanwhile the coroutine may have been
resumed. -/
theorem tryResumeStep_effect {i : Fin n} (hs : s.tryResumeStep i = some t) :
    (t.awaiter = s.awaiter ∨ t.awaiter = .completedResult) ∧ t.ids = s.ids ∧
      (t.inputs = s.inputs ∨
        ∃ q, (s.inputs i).producerStep = some q ∧ t.inputs = (s.setInput i q).inputs) := by
  have hleave : s.leave i = some t → (t.awaiter = s.awaiter ∨ t.awaiter = .completedResult) ∧
      t.ids = s.ids ∧ (t.inputs = s.inputs ∨
        ∃ q, (s.inputs i).producerStep = some q ∧ t.inputs = (s.setInput i q).inputs) := by
    intro hs
    obtain ⟨q, hq, rfl⟩ := Option.map_eq_some_iff.1 hs
    exact ⟨.inl rfl, rfl, .inr ⟨q, hq, rfl⟩⟩
  unfold tryResumeStep at hs
  split at hs
  · split at hs
    · exact hleave hs
    · cases hs; exact ⟨.inl rfl, rfl, .inl rfl⟩
    · cases hs; exact ⟨.inl rfl, rfl, .inl rfl⟩
  · split_ifs at hs
    · cases hs; exact ⟨.inl rfl, rfl, .inl rfl⟩
    · exact hleave hs
  · split_ifs at hs
    · obtain ⟨q, hq, rfl⟩ := Option.map_eq_some_iff.1 hs
      exact ⟨.inl rfl, rfl, .inr ⟨q, hq, rfl⟩⟩
    · cases hs; exact ⟨.inl rfl, rfl, .inl rfl⟩
  · unfold callHandle at hs
    split_ifs at hs <;> obtain ⟨q, hq, rfl⟩ := Option.map_eq_some_iff.1 hs
    · exact ⟨.inr rfl, rfl, .inr ⟨q, hq, rfl⟩⟩
    · exact ⟨.inl rfl, rfl, .inr ⟨q, hq, rfl⟩⟩
  · cases hs

theorem inputStep_effect {i : Fin n} {m : Move α ε} (hs : s.inputStep i m = some t) :
    (t.awaiter = s.awaiter ∨ t.awaiter = .completedResult) ∧ t.ids = s.ids ∧
      (t.inputs = s.inputs ∨
        ∃ q, (s.inputs i).step m = some q ∧ t.inputs = (s.setInput i q).inputs) := by
  cases m with
  | call | consumer | timeout => cases hs
  | producer =>
    simp only [inputStep] at hs
    split_ifs at hs with hpc
    · exact tryResumeStep_effect hs
    · obtain ⟨q, hq, rfl⟩ := Option.map_eq_some_iff.1 hs
      exact ⟨.inl rfl, rfl, .inr ⟨q, hq, rfl⟩⟩
  | _ =>
    obtain ⟨q, hq, rfl⟩ := Option.map_eq_some_iff.1 hs
    exact ⟨.inl rfl, rfl, .inr ⟨q, hq, rfl⟩⟩

/-- **Each input is a `Protocol`**: a step leaves it alone or is one of its own steps. -/
theorem step_input {m : WhenAnyMove α ε n} (hs : s.step m = some t) (j : Fin n) :
    t.inputs j = s.inputs j ∨ ∃ m', (s.inputs j).step m' = some (t.inputs j) := by
  cases m with
  | awaiter => exact input_of_awaiterStep hs j
  | input =>
    obtain ⟨-, -, hin | ⟨q, hq, hin⟩⟩ := inputStep_effect hs
    · exact .inl (congrFun hin j)
    · rw [hin]
      exact input_of_setInput hq j

/-- The inputs of a `when_any` are results like any other. -/
theorem input_reachable (h : Reachable s) (i : Fin n) : Protocol.Reachable (s.inputs i) := by
  induction h with
  | start hs =>
    obtain ⟨inputs, hin, rfl⟩ := hs
    exact (hin i).1
  | next _ _ hs ih =>
    rcases step_input hs i with he | ⟨m, hm⟩
    · rw [he]
      exact ih
    · exact ih.next trivial hm

end WhenAny
end Concurrencpp
