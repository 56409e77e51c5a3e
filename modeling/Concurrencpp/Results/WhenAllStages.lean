import Concurrencpp.Results.WhenAll

/-!
# One result of `when_all`

What the coroutine of `when_all` does with one result, and what its producer does meanwhile.

* `await_cases`, `consumer_of_producer`, `suspended_of_callHandle`: the steps of `await` and of the
  producer as `when_all` sees them;
* `Stage`: what the coroutine has done with a result, as a function of its program point and of the
  position (`WhenAllPc.stage`), and what this says about the state of the result (`Stage.Ok`).  A
  producer's step keeps the stage (`Stage.Ok.input`), unless it calls the coroutine's handle
  (`Stage.Ok.callHandle`).
-/

namespace Concurrencpp

/-! ### What `when_all` needs to know of a result -/

namespace AwaitPc

/-- The coroutine is running inside `await`. -/
def running : AwaitPc → Bool
  | .suspended _ => false
  | _ => true

/-- How many steps `await` takes at most. -/
def stepsLeft : AwaitPc → ℕ
  | .load => 4
  | .set => 3
  | .cas _ => 2
  | .assertDone => 1
  | .suspended _ => 0

end AwaitPc

/-- How many steps are left of `await`, if the consumer is there. -/
def ConsumerPc.awaitSteps : ConsumerPc → ℕ
  | .await pc _ => pc.stepsLeft
  | _ => 0

namespace Protocol

variable {α ε : Type} {s t : Protocol α ε} {m : Move α ε}

/-- A state that has come to `producer_done` has a producer past its exchange. -/
theorem published_of_producerDone (h : Inv s) (hst : s.state.pcState = .producerDone) :
    s.producer.published = true := by
  cases hp : s.producer.published with
  | true => rfl
  | false =>
    have hok := h.consumer
    rw [hp] at hok
    exact absurd hst hok.ne_producerDone

/-- The handle that a producer calls is the one of a suspended coroutine. -/
theorem suspended_of_callHandle {i : ℕ} (h : Inv s) (hpc : s.producer = .callHandle i) :
    ∃ k, s.consumer = .await (.suspended i) k := by
  have hpr := h.producer
  rw [hpc] at hpr
  obtain ⟨k, -, hk⟩ := hpr
  exact ⟨k, hk⟩

/-- No other step of the producer moves the consumer, unless there is a shared state. -/
theorem consumer_of_producer (hm : m.ofProducer = true) (hs : s.step m = some t)
    (hhandle : m = .producer → ∀ i, s.producer ≠ .callHandle i)
    (hc : ∀ pc, s.consumer ≠ .share pc) : t.consumer = s.consumer := by
  cases m with
  | call | consumer | timeout => cases hm
  | setResult | setException =>
    obtain ⟨-, rfl⟩ := build_eq_some hs
    rfl
  | completeProducer =>
    obtain ⟨-, rfl⟩ := completeProducer_eq_some hs
    rfl
  | producer =>
    rcases (producerStep_effect hs).consumer with h | ⟨-, hdropped, -⟩ | ⟨i, k, hpc, -⟩
    · exact h
    · exact absurd hdropped (hc _)
    · exact absurd hpc (hhandle rfl i)

/-- A step inside `await`: it returns because the producer is done, or suspends, or goes on. -/
theorem await_cases {pc : AwaitPc} (h : Inv s) (hc : s.consumer = .await pc .ret)
    (hs : s.consumerStep = some t) :
    (t.consumer = .ready (some .resolve) ∧ s.producer.published = true) ∨
      (∃ i, t.consumer = .await (.suspended i) .ret) ∨
      ∃ pc', t.consumer = .await pc' .ret ∧ pc'.running = true ∧ pc'.stepsLeft < pc.stepsLeft := by
  simp only [consumerStep, hc] at hs
  cases pc with
  | load =>
    simp only [awaitStep] at hs
    split_ifs at hs with hst
    · cases hs
      exact .inl ⟨rfl, published_of_producerDone h hst⟩
    · cases hs
      exact .inr (.inr ⟨.set, rfl, rfl, by decide⟩)
  | set =>
    cases hs
    exact .inr (.inr ⟨.cas s.fresh, rfl, rfl, Nat.lt_succ_self 2⟩)
  | cas i =>
    simp only [awaitStep] at hs
    split_ifs at hs
    · cases hs
      exact .inr (.inl ⟨i, rfl⟩)
    · cases hs
      exact .inr (.inr ⟨.assertDone, rfl, rfl, Nat.lt_succ_self 1⟩)
  | assertDone =>
    have hok := h.consumer
    rw [hc] at hok
    cases hs
    exact .inl ⟨rfl, hok.1⟩
  | suspended => cases hs

/-- `await` is never stuck before it suspends. -/
theorem await_step {pc : AwaitPc} (hc : s.consumer = .await pc .ret) (hpc : pc.running = true) :
    ∃ t, s.consumerStep = some t := by
  simp only [consumerStep, hc]
  cases pc with
  | load | cas =>
    simp only [awaitStep]
    split_ifs <;> exact ⟨_, rfl⟩
  | set | assertDone => exact ⟨_, rfl⟩
  | suspended => cases hpc

end Protocol

/-! ### The stages of one result -/

/-- What the coroutine has done with a result. -/
inductive Stage
  | untouched
  | awaiting
  | suspended
  | passed
  deriving DecidableEq, Repr

namespace Stage

/-- What a stage says about the state of the result, and about the coroutine's suspensions on it. -/
def Ok {α ε : Type} (p : Protocol α ε) (suspensions resumptions : ℕ) : Stage → Prop
  | .untouched => (∃ last, p.consumer = .ready last) ∧ suspensions = 0 ∧ resumptions = 0
  | .awaiting => (∃ pc, p.consumer = .await pc .ret ∧ pc.running = true) ∧
      suspensions = 0 ∧ resumptions = 0
  | .suspended => (∃ i, p.consumer = .await (.suspended i) .ret) ∧ suspensions = 1 ∧ resumptions = 0
  | .passed => (∃ last, p.consumer = .ready last) ∧ p.producer.published = true ∧
      resumptions = suspensions ∧ suspensions ≤ 1

variable {α ε : Type} {p q : Protocol α ε} {m : Move α ε} {stage : Stage}
  {suspensions resumptions : ℕ}

theorem Ok.not_share (h : stage.Ok p suspensions resumptions) (pc : SharePc) :
    p.consumer ≠ .share pc := by
  intro hpc
  cases stage with
  | untouched | passed =>
    obtain ⟨⟨last, hc⟩, -⟩ := h
    cases hc.symm.trans hpc
  | awaiting =>
    obtain ⟨⟨pc', hc, -⟩, -⟩ := h
    cases hc.symm.trans hpc
  | suspended =>
    obtain ⟨⟨i, hc⟩, -⟩ := h
    cases hc.symm.trans hpc

/-- A producer's step that calls no handle leaves the result at its stage. -/
theorem Ok.input (h : stage.Ok p suspensions resumptions) (hm : m.ofProducer = true)
    (hs : p.step m = some q) (hhandle : m = .producer → ∀ i, p.producer ≠ .callHandle i) :
    stage.Ok q suspensions resumptions := by
  have hc := Protocol.consumer_of_producer hm hs hhandle h.not_share
  cases stage with
  | passed =>
    obtain ⟨hready, hpub, hcounts⟩ := h
    exact ⟨by rw [hc]; exact hready, Protocol.published_step hpub hs, hcounts⟩
  | _ =>
    refine ⟨?_, h.2⟩
    rw [hc]
    exact h.1

/-- The producer that calls the handle takes the coroutine past the result. -/
theorem Ok.callHandle {i : ℕ} (h : stage.Ok p suspensions resumptions) (hp : Protocol.Reachable p)
    (hpc : p.producer = .callHandle i) (hs : p.producerStep = some q) :
    stage = .suspended ∧ Stage.passed.Ok q suspensions (resumptions + 1) := by
  have hinv := Protocol.inv_of_reachable hp
  obtain ⟨k, hk⟩ := Protocol.suspended_of_callHandle hinv hpc
  cases stage with
  | untouched | passed =>
    obtain ⟨⟨last, hc⟩, -⟩ := h
    cases hc.symm.trans hk
  | awaiting =>
    obtain ⟨⟨pc, hc, hrun⟩, -⟩ := h
    cases hc.symm.trans hk
    cases hrun
  | suspended =>
    obtain ⟨⟨j, hc⟩, hsus, hres⟩ := h
    cases hc.symm.trans hk
    simp only [Protocol.producerStep, hpc] at hs
    cases hs
    rw [Protocol.resumeHandle_eq hk]
    exact ⟨rfl, ⟨_, rfl⟩, rfl, by rw [hsus, hres], hsus.le⟩

/-- `await` is called. -/
theorem Ok.begin (h : Stage.untouched.Ok p suspensions resumptions)
    (hs : p.call .resolve = some q) :
    Stage.awaiting.Ok q suspensions resumptions ∧ q.consumer = .await .load .ret := by
  obtain ⟨⟨last, hc⟩, hcounts⟩ := h
  simp only [Protocol.call, hc] at hs
  cases hs
  exact ⟨⟨⟨.load, rfl, rfl⟩, hcounts⟩, rfl⟩

end Stage

namespace WhenAllPc

variable {ι : Type}

/-- The stage of the result at `i`. -/
def stage (i : ℕ) : WhenAllPc ι → Stage
  | .loop j => if i < j then .passed else .untouched
  | .awaiting j => if i < j then .passed else if i = j then .awaiting else .untouched
  | .suspended j => if i < j then .passed else if i = j then .suspended else .untouched
  | .resumeOn | .posted | .returned _ | .broken => .passed

/-- The program point fits to the collection: a result is awaited at a position that exists, and
what is returned is the collection. -/
def Within (collection : List ι) : WhenAllPc ι → Prop
  | .awaiting i | .suspended i => i < collection.length
  | .returned c => c = collection
  | _ => True

/-- The coroutine is in its loop. -/
def inLoop : WhenAllPc ι → Bool
  | .loop _ | .awaiting _ | .suspended _ => true
  | _ => false

/-- How many steps of its own the coroutine takes at most, over `n` results. -/
def stepsLeft (n : ℕ) (awaitSteps : ℕ → ℕ) : WhenAllPc ι → ℕ
  | .loop i => 5 * (n - i) + 2
  | .awaiting i => 5 * (n - (i + 1)) + 2 + awaitSteps i
  | .suspended i => 5 * (n - (i + 1)) + 2
  | .resumeOn => 1
  | .posted | .returned _ | .broken => 0

variable {i j : ℕ}

theorem stage_awaiting_self : (WhenAllPc.awaiting i : WhenAllPc ι).stage i = .awaiting := by
  simp [stage]

theorem stage_suspended_self : (WhenAllPc.suspended i : WhenAllPc ι).stage i = .suspended := by
  simp [stage]

theorem stage_loop_self : (WhenAllPc.loop i : WhenAllPc ι).stage i = .untouched := by
  simp [stage]

theorem stage_loop_succ : (WhenAllPc.loop (i + 1) : WhenAllPc ι).stage i = .passed := by
  simp [stage]

/-- At the other positions nothing changes while the coroutine deals with the result at `i`. -/
theorem stage_of_ne (hj : j ≠ i) :
    (WhenAllPc.awaiting i : WhenAllPc ι).stage j = (WhenAllPc.loop i : WhenAllPc ι).stage j ∧
      (WhenAllPc.suspended i : WhenAllPc ι).stage j = (WhenAllPc.loop i : WhenAllPc ι).stage j ∧
      (WhenAllPc.loop (i + 1) : WhenAllPc ι).stage j =
      (WhenAllPc.loop i : WhenAllPc ι).stage j := by
  have hlt : j < i + 1 ↔ j < i := by omega
  simp [stage, hj, hlt]

theorem suspended_of_stage {pc : WhenAllPc ι} (h : pc.stage i = .suspended) :
    pc = .suspended i := by
  cases pc with
  | loop | awaiting =>
    simp only [stage] at h
    split_ifs at h
  | suspended =>
    simp only [stage] at h
    split_ifs at h with _ hij
    rw [hij]
  | _ => cases h

end WhenAllPc

end Concurrencpp
