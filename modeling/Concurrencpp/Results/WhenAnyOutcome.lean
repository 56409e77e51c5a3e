import Concurrencpp.Results.WhenAnyProducers

/-!
# What `when_any` delivers

* `resumes_once`: the coroutine goes on past the `co_await` at most once; `await_resume` finds the
  address of a finished input, and leaves every input finished or as good as new.
* A completion can be lost.  `result_state_base::when_any` returns the value of its first load, so
  that a producer whose exchange falls between that load and the compare-exchange is noticed by
  nobody: `lost_completion` is such a run with one input.  `no_lost_completion` shows that this is
  the only way.
-/

namespace Concurrencpp

open Interleaving

/-- The producer is inside `complete_producer`. -/
def ProducerPc.inside : ProducerPc → Bool
  | .building | .built | .done => false
  | _ => true

/-- The input whose `when_any` is running. -/
def AwaiterPc.registeringInput : AwaiterPc → Option ℕ
  | .registering i _ => some i
  | _ => none

/-- The inputs that `await_suspend` has passed without finding a finished result. -/
def AwaiterPc.passed (i : ℕ) : AwaiterPc → Bool
  | .check j | .registering j _ => i < j
  | .finishCas | .suspended => true
  | _ => false

namespace WhenAny

variable {α ε : Type} {n : ℕ} {s t : WhenAny α ε n}

/-! ### The answer -/

/-- The result whose address `m_status` holds is an input, and it is finished. -/
theorem finished_of_completed {k : ℕ} (h : Reachable s) (hk : s.status = .completed k) :
    ∃ i : Fin n, k = i ∧ (s.inputs i).state.pcState = .producerDone := by
  have hinv := inv_of_reachable h
  obtain ⟨hkn, hp⟩ := hinv.result k hk
  exact ⟨⟨k, hkn⟩, rfl, Protocol.pcState_of_published
    (Protocol.inv_of_reachable (input_reachable h _)) hp (hinv.point _).not_completing⟩

/-- A rewound input is finished, or idle with an idle context. -/
theorem usable_of_ready {last : Option Ret} {p : Protocol α ε} (h : Protocol.Reachable p)
    (hc : p.consumer = .ready last) : p.state.pcState = .producerDone ∨
      p.state.pcState = .idle ∧ p.state.consumer = .idle := by
  have hok := (Protocol.inv_of_reachable h).consumer
  rw [hc] at hok
  obtain ⟨⟨hst, hquiet⟩, -⟩ := hok
  cases hp : p.producer.published with
  | true => exact .inl (hst.trans (by rw [hp]; rfl))
  | false => exact .inr ⟨hst.trans (by rw [hp]; rfl), (hquiet hp).1⟩

/-- Before the resumption the coroutine has not gone on, behind it once. -/
theorem StatusOk.continuations_le {st : WhenAnyStatus} {continuations : ℕ} {pc : AwaiterPc}
    (h : StatusOk n st continuations pc) : continuations ≤ 1 := by
  cases pc with
  | check | registering | finishCas | suspended => exact h.2.le.trans zero_le_one
  | inlineLoad | inlineCas => exact h.2.2.le.trans zero_le_one
  | completedResult => exact h.2.le
  | rewinding | returned => exact h.1.le

/-- **`when_any` resumes once and returns a usable answer.**  The coroutine goes on past the
`co_await` at most once, and a producer about to call the handle is the only one and finds it
suspended.  When `await_resume` runs, the completed result is one of the inputs, which is finished.
When it has returned, the index is the one of that input, and each input is finished, or idle with
an idle context, whatever the late producers do; its consumer may begin any call. -/
theorem resumes_once (h : Reachable s) :
    s.continuations ≤ 1 ∧
    (∀ i, s.tries i = .callHandle → s.awaiter = .suspended ∧ s.continuations = 0 ∧
      ∀ j, s.tries j = .callHandle → j = i) ∧
    (s.awaiter = .completedResult →
      ∃ i : Fin n, s.status = .completed i ∧ (s.inputs i).state.pcState = .producerDone) ∧
    (∀ j completed index, s.awaiter = .rewinding j completed index →
      ∃ i : Fin n, completed = .completed i ∧ (s.inputs i).state.pcState = .producerDone) ∧
    (∀ index, s.awaiter = .returned index →
      (∃ i : Fin n, index = some (i : ℕ) ∧ (s.inputs i).state.pcState = .producerDone) ∧
      ∀ j, Protocol.Reachable (s.inputs j) ∧ (s.inputs j).consumer = .ready (some .whenAny) ∧
        ((s.inputs j).state.pcState = .producerDone ∨
          (s.inputs j).state.pcState = .idle ∧ (s.inputs j).state.consumer = .idle)) := by
  have hinv := inv_of_reachable h
  have hstatus := hinv.status
  have hpoint := hinv.point
  refine ⟨?_, fun i hi => ?_, fun hpc => ?_, fun j completed index hpc => ?_, fun index hpc => ?_⟩
  · exact hstatus.continuations_le
  · obtain ⟨hst, hsusp, -⟩ := hinv.handle i hi
    rw [hsusp] at hstatus
    refine ⟨hsusp, hstatus.2, fun j hj => Fin.ext ?_⟩
    exact WhenAnyStatus.completed.inj ((hinv.handle j hj).1.symm.trans hst)
  · rw [hpc] at hstatus
    obtain ⟨⟨k, hk⟩, -⟩ := hstatus
    obtain ⟨i, rfl, hd⟩ := finished_of_completed h hk
    exact ⟨i, hk, hd⟩
  · rw [hpc] at hstatus
    obtain ⟨-, k, hk, hcomp, -⟩ := hstatus
    obtain ⟨i, rfl, hd⟩ := finished_of_completed h hk
    exact ⟨i, hcomp.trans hk, hd⟩
  · rw [hpc] at hstatus hpoint
    obtain ⟨-, k, hk, hidx⟩ := hstatus
    obtain ⟨i, rfl, hd⟩ := finished_of_completed h hk
    refine ⟨⟨i, hidx, hd⟩, fun j => ⟨input_reachable h j, hpoint j, ?_⟩⟩
    exact usable_of_ready (input_reachable h j) (hpoint j)

/-- Two inputs: the producer of the second one finds the registration and resumes the suspended
coroutine; that of the first one comes while the coroutine is in `await_resume`, finds its own
registration, and leaves without calling the handle. -/
def lateProducer : List (WhenAnyMove ℕ ℕ 2) :=
  let produce (i : Fin 2) (n : ℕ) : List (WhenAnyMove ℕ ℕ 2) :=
    [.input i (.setResult 7), .input i (.completeProducer none)] ++
    List.replicate n (.input i .producer)
  List.replicate 10 .awaiter ++ produce 1 6 ++ [.awaiter] ++ produce 0 4 ++
  List.replicate 5 .awaiter

theorem resumes_once_of_try_resume :
    ∃ s : WhenAny ℕ ℕ 2, Reachable s ∧ s.awaiter = .returned (some 1) ∧ s.tries 0 = .returned ∧
      s.continuations ≤ 1 ∧
      ∃ i : Fin 2, some 1 = some (i : ℕ) ∧ (s.inputs i).state.pcState = .producerDone := by
  let s := lastState step (start fun _ => Protocol.initial) lateProducer
  have h : Reachable s := .lastState ⟨_, fun _ => ⟨.start rfl, none, rfl⟩, rfl⟩ lateProducer
  have hpc : s.awaiter = .returned (some 1) := by decide +kernel
  obtain ⟨hc, -, -, -, hret⟩ := resumes_once h
  exact ⟨s, h, hpc, by decide +kernel, hc, (hret _ hpc).1⟩

/-! ### Lost completions -/

/-- The coroutine is suspended, some producer has finished, and nobody is left to resume it. -/
def Lost (s : WhenAny α ε n) : Prop :=
  s.awaiter = .suspended ∧ (∃ i, (s.inputs i).producer = .done) ∧
    ∀ i, (s.inputs i).producer.inside = false

/-- The compare-exchange of `when_any` is taken while its input is idle: no producer has exchanged
`m_pc_state` since the first load. -/
def CasFindsIdle (s : WhenAny α ε n) (m : WhenAnyMove α ε n) : Prop :=
  m = .awaiter → ∀ i : Fin n, s.awaiter.registeringInput = some (i : ℕ) →
    (s.inputs i).consumer.publishes ≠ none → (s.inputs i).state.pcState = .idle

instance (s : WhenAny α ε n) (m : WhenAnyMove α ε n) : Decidable (CasFindsIdle s m) :=
  match m with
  | .awaiter => decidable_of_iff (∀ i : Fin n, s.awaiter.registeringInput = some (i : ℕ) →
      (s.inputs i).consumer.publishes ≠ none → (s.inputs i).state.pcState = .idle)
      ⟨fun h _ => h, fun h => h rfl⟩
  | .input _ _ => .isTrue nofun

/-- Every input that `await_suspend` has passed is registered, and no compare-exchange has
failed. -/
structure Enrolled (s : WhenAny α ε n) : Prop where
  passed : ∀ i : Fin n, s.awaiter.passed i = true →
    (s.inputs i).registered = some (.whenAny (s.ids i))
  inside : ∀ i : Fin n, s.awaiter.registeringInput = some (i : ℕ) →
    (s.inputs i).consumer ≠ .whenAny .assertDone

/-- In a lost state every finished input has escaped the registration. -/
theorem not_registered_of_lost (h : Inv s) (hl : Lost s) (i : Fin n)
    (hd : (s.inputs i).producer = .done) : (s.inputs i).registered ≠ some (.whenAny (s.ids i)) := by
  obtain ⟨hsusp, -, hinside⟩ := hl
  intro hreg
  obtain ⟨k, hk⟩ := h.delivered i hreg hd
  -- a completed result has been written by a producer that is about to call the handle
  rcases h.resumer hsusp with hst | ⟨j, hj⟩
  · cases hst.symm.trans hk
  · have hout := hinside j
    rw [(h.handle j hj).2.2] at hout
    cases hout

variable {i : Fin n}

/-- What a producer's step leaves alone. -/
theorem inputStep_frame {m : Move α ε} (h : Inv s) (hs : s.inputStep i m = some t) (j : Fin n) :
    (t.inputs j).registered = (s.inputs j).registered ∧
      (t.inputs j).consumer = (s.inputs j).consumer := by
  obtain ⟨-, -, hin | ⟨q, hq, hin⟩⟩ := inputStep_effect hs <;> rw [hin]
  · exact ⟨rfl, rfl⟩
  have hsame : q.registered = (s.inputs i).registered ∧ q.consumer = (s.inputs i).consumer := by
    cases m with
    | call | consumer | timeout => cases hs
    | setResult | setException =>
      obtain ⟨-, rfl⟩ := Protocol.build_eq_some hq
      exact ⟨rfl, rfl⟩
    | completeProducer =>
      obtain ⟨-, rfl⟩ := Protocol.completeProducer_eq_some hq
      exact ⟨rfl, rfl⟩
    | producer =>
      exact ⟨(Protocol.producerStep_effect hq).registered,
        Protocol.producerStep_consumer hq (h.point i).not_parked⟩
  by_cases hj : j = i
  · subst hj
    rw [setInput_same]
    exact hsame
  · rw [setInput_of_ne q hj]
    exact ⟨rfl, rfl⟩

/-- A step of the coroutine to a point outside `when_any`. -/
theorem Enrolled.of_not_registering (hreg : t.awaiter.registeringInput = none)
    (hp : ∀ i : Fin n, t.awaiter.passed i = true →
      (t.inputs i).registered = some (.whenAny (t.ids i))) : Enrolled t where
  passed := hp
  inside := fun i hi => by cases hreg.symm.trans hi

/-- A step of the coroutine to a point behind `await_suspend`. -/
theorem Enrolled.of_not_passed (hp : ∀ i, t.awaiter.passed i = false)
    (hreg : t.awaiter.registeringInput = none) : Enrolled t :=
  .of_not_registering hreg fun i hi => by cases (hp i).symm.trans hi

theorem enrolled_inputStep {m : Move α ε} (h : Inv s) (he : Enrolled s)
    (hs : s.inputStep i m = some t) : Enrolled t := by
  have hin := inputStep_frame h hs
  obtain ⟨ha | ha, hids, -⟩ := inputStep_effect hs
  · refine ⟨fun j hj => ?_, fun j hj => ?_⟩
    · rw [(hin j).1, hids]
      exact he.passed j (ha ▸ hj)
    · rw [(hin j).2]
      exact he.inside j (ha ▸ hj)
  · exact Enrolled.of_not_passed (fun _ => by rw [ha]; rfl) (by rw [ha]; rfl)

/-- In a run within the condition, a compare-exchange of `when_any` registers the context. -/
theorem enrolled_registerStep {i : ℕ} {state : PcState} (h : Inv s) (he : Enrolled s)
    (hm : CasFindsIdle s .awaiter) (hpc : s.awaiter = .registering i state)
    (hs : s.registerStep i state = some t) : Enrolled t := by
  have hpoint := h.point
  rw [hpc] at hpoint
  unfold registerStep at hs
  split at hs
  case isFalse => cases hs
  case isTrue hi =>
    obtain ⟨q, hq, rfl⟩ := Option.map_eq_some_iff.1 hs
    have hin := hpoint ⟨i, hi⟩
    rw [InputOk, if_neg (lt_irrefl i), if_pos rfl] at hin
    obtain ⟨pc, hc, hpcok⟩ := hin
    have hreg : s.awaiter.registeringInput = some i := by rw [hpc]; rfl
    have hothers : ∀ j : Fin n, (j : ℕ) < i →
        ((s.setInput ⟨i, hi⟩ q).inputs j).registered = some (.whenAny (s.ids j)) := fun j hj => by
      rw [setInput_of_ne q (fun hji => by rw [hji] at hj; exact lt_irrefl _ hj)]
      exact he.passed j (by rw [hpc]; exact decide_eq_true hj)
    -- still inside `when_any`, at a point other than its `assert_done`
    have hinside : ∀ {pc' : WhenAnyPc} {state' : PcState}, q.consumer = .whenAny pc' →
        pc' ≠ .assertDone → Enrolled ((s.setInput ⟨i, hi⟩ q).goto (.registering i state')) :=
      fun hqc hne => ⟨fun j hj => hothers j (of_decide_eq_true hj), fun j hj => by
        have hji : j = ⟨i, hi⟩ := Fin.ext (Option.some.inj hj).symm
        rw [hji]
        show ((s.setInput ⟨i, hi⟩ q).inputs ⟨i, hi⟩).consumer ≠ _
        rw [setInput_same, hqc]
        exact fun heq => hne (ConsumerPc.whenAny.inj heq)⟩
    simp only [Protocol.consumerStep, hc] at hq
    cases pc with
    | load =>
      simp only [hc, if_true]
      simp only [Protocol.whenAnyStep] at hq
      split_ifs at hq with hd <;> cases hq
      · rw [Protocol.goto_consumer, if_pos rfl, afterWhenAny, if_pos hd]
        exact Enrolled.of_not_passed (fun _ => rfl) rfl
      · rw [if_neg (by simp)]
        exact hinside rfl (by simp)
    | set =>
      cases hq
      rw [if_neg (by simp)]
      exact hinside rfl (by simp)
    | cas =>
      have hidle := hm rfl ⟨i, hi⟩ hreg (by rw [hc]; exact Option.some_ne_none _)
      simp only [Protocol.whenAnyStep, if_pos hidle] at hq
      cases hq
      simp only [hc, reduceCtorEq, if_false, ConsumerPc.whenAny.injEq]
      rw [Protocol.goto_consumer, if_pos rfl, afterWhenAny, if_neg hpcok.2]
      refine .of_not_registering rfl fun j hj => ?_
      rcases Nat.lt_succ_iff_lt_or_eq.1 (of_decide_eq_true hj) with hlt | heq
      · exact hothers j hlt
      · have hji : j = ⟨i, hi⟩ := Fin.ext heq
        rw [hji]
        show ((s.setInput ⟨i, hi⟩ _).inputs ⟨i, hi⟩).registered = _
        rw [setInput_same]
        exact congrArg (fun id => some (Waiter.whenAny id)) hpcok.1
    | assertDone => exact absurd hc (he.inside ⟨i, hi⟩ hreg)
    | pending => exact absurd hpcok id

theorem enrolled_awaiterStep (h : Inv s) (he : Enrolled s) (hm : CasFindsIdle s .awaiter)
    (hs : s.awaiterStep = some t) : Enrolled t := by
  unfold awaiterStep at hs
  split at hs
  case h_1 i hpc =>
    have hpassed : ∀ j : Fin n, (j : ℕ) < i →
        (s.inputs j).registered = some (.whenAny (s.ids j)) := fun j hj =>
      he.passed j (by rw [hpc]; exact decide_eq_true hj)
    unfold checkStep at hs
    split_ifs at hs with hi hst
    · obtain ⟨q, hq, rfl⟩ := Option.map_eq_some_iff.1 hs
      have hin := h.point ⟨i, hi⟩
      rw [hpc, InputOk, if_neg (lt_irrefl i)] at hin
      obtain ⟨⟨last, hlast⟩, -⟩ := hin
      simp only [Protocol.call, hlast] at hq
      cases hq
      refine ⟨fun j hj => ?_, fun j hj => ?_⟩
      · have hlt : (j : ℕ) < i := of_decide_eq_true hj
        show ((s.setInput ⟨i, hi⟩ _).inputs j).registered = _
        rw [setInput_of_ne _ (fun hji => by rw [hji] at hlt; exact lt_irrefl _ hlt)]
        exact hpassed j hlt
      · have hji : j = ⟨i, hi⟩ := Fin.ext (Option.some.inj hj).symm
        rw [hji]
        show ((s.setInput ⟨i, hi⟩ _).inputs ⟨i, hi⟩).consumer ≠ _
        rw [setInput_same]
        simp [Protocol.goto, Op.entry]
    · cases hs
      exact Enrolled.of_not_passed (fun _ => rfl) rfl
    · cases hs
      exact .of_not_registering rfl fun j _ => hpassed j (by omega)
  case h_2 hpc => exact enrolled_registerStep h he hm hpc hs
  case h_3 hpc =>
    cases hs
    unfold inlineLoadStep
    split_ifs <;> exact Enrolled.of_not_passed (fun _ => rfl) rfl
  case h_4 hpc =>
    cases hs
    unfold inlineCasStep
    split_ifs <;> exact Enrolled.of_not_passed (fun _ => rfl) rfl
  case h_5 hpc =>
    cases hs
    unfold finishStep
    split_ifs
    · exact .of_not_registering rfl fun j _ => he.passed j (by rw [hpc]; rfl)
    · exact Enrolled.of_not_passed (fun _ => rfl) rfl
  case h_6 => cases hs
  case h_7 => cases hs; exact Enrolled.of_not_passed (fun _ => rfl) rfl
  case h_8 hpc =>
    unfold rewindStep at hs
    split at hs
    · split at hs <;> obtain ⟨q, hq, rfl⟩ := Option.map_eq_some_iff.1 hs
      · exact Enrolled.of_not_passed
          (fun _ => by show AwaiterPc.passed _ s.awaiter = _; rw [hpc]; rfl)
          (by show AwaiterPc.registeringInput s.awaiter = _; rw [hpc]; rfl)
      · refine Enrolled.of_not_passed (fun _ => ?_) ?_
        · show AwaiterPc.passed _ (ite _ _ _) = _
          split_ifs <;> rfl
        · show AwaiterPc.registeringInput (ite _ _ _) = _
          split_ifs <;> rfl
    · cases hs
      exact Enrolled.of_not_passed (fun _ => rfl) rfl
  case h_9 => cases hs

theorem enrolled_of_reach (h : Reach step IsInitial CasFindsIdle s) : Enrolled s := by
  refine Reach.invariant_of_reach ?_ ?_ h
  · rintro _ ⟨inputs, -, rfl⟩
    refine ⟨fun j hj => ?_, nofun⟩
    have hlt : decide ((j : ℕ) < 0) = true := hj
    exact absurd (of_decide_eq_true hlt) (Nat.not_lt_zero _)
  · intro s m t hreach he hm hs
    have hinv := inv_of_reachable hreach.reachable
    cases m with
    | awaiter => exact enrolled_awaiterStep hinv he hm hs
    | input => exact enrolled_inputStep hinv he hs

/-- **No completion is lost, unless a producer's exchange falls into the window of `when_any`.**  In
a run whose compare-exchanges in `when_any` all find the input idle, the coroutine is never left
suspended behind a finished producer; and in any run, a completion that is lost belongs to an input
that `when_any` has failed to register. -/
theorem no_lost_completion :
    (∀ s : WhenAny α ε n, Reach step IsInitial CasFindsIdle s → ¬ Lost s) ∧
    (∀ s : WhenAny α ε n, Reachable s → Lost s → ∀ i, (s.inputs i).producer = .done →
      (s.inputs i).registered ≠ some (.whenAny (s.ids i))) := by
  refine ⟨fun s h hl => ?_, fun s h hl => not_registered_of_lost (inv_of_reachable h) hl⟩
  obtain ⟨i, hd⟩ := hl.2.1
  refine not_registered_of_lost (inv_of_reachable h.reachable) hl i hd ?_
  exact (enrolled_of_reach h).passed i (by rw [hl.1]; rfl)

/-- A run within the condition: both producers come after the registrations, and the first to do so
resumes the coroutine. -/
theorem no_lost_completion_of_resume :
    ∃ s : WhenAny ℕ ℕ 2, Reach step IsInitial CasFindsIdle s ∧
      (∀ i, (s.inputs i).producer = .done) ∧ ¬ Lost s := by
  have h : Reach step IsInitial CasFindsIdle _ :=
    .lastState (s := start fun _ => Protocol.initial)
      ⟨_, fun _ => ⟨.start rfl, none, rfl⟩, rfl⟩ lateProducer
  exact ⟨_, h, by decide +kernel, no_lost_completion.1 _ h⟩

/-- One input: its producer exchanges `m_pc_state` between the load and the compare-exchange of
`when_any`, which returns `idle`; nobody writes `m_status`, and `finish_processing` suspends the
coroutine for good. -/
theorem lost_completion : ∃ s : WhenAny ℕ ℕ 1, Reachable s ∧ Lost s := by
  let schedule : List (WhenAnyMove ℕ ℕ 1) := [.awaiter, .awaiter, .awaiter,
    .input 0 (.setResult 7), .input 0 (.completeProducer none), .input 0 .producer,
    .awaiter, .awaiter, .awaiter, .awaiter]
  let s := lastState step (start fun _ => Protocol.initial) schedule
  have h : Reachable s := .lastState ⟨_, fun _ => ⟨.start rfl, none, rfl⟩, rfl⟩ schedule
  refine ⟨s, h, rfl, ⟨0, rfl⟩, fun i => ?_⟩
  rw [Subsingleton.elim i 0]
  rfl

end WhenAny
end Concurrencpp
