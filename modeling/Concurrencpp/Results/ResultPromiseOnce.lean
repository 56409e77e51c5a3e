import Concurrencpp.Results.ResultPromiseCells

/-!
# A result is completed exactly once

`ResultPromises.Ok` is the invariant of `ResultPromiseCells` for the ends that the promises and the
results hold.  `Ok.exec` proves it operation by operation; the order in which `operator=` and the
destructor give up the two ends of a promise is that of `Ok.giveUp`.

`result_completed_once` reads the consequences off: a result whose promise is gone is
`producer_done`, with what has been set or with `broken_task`; a state is published once and freed
once; a setter that throws changes nothing.
-/

namespace Concurrencpp

open Function (update update_self update_of_ne update_eq_self update_idem forall_update_iff)

variable {α ε : Type}

/-- The promise `p` is set, destroyed or overwritten. -/
def PromiseOp.completes : PromiseOp α ε → ℕ → Bool
  | .moveAssign q rhs, p => q = p && q ≠ rhs
  | .destroy q, p => q = p
  | .setResult q (.ok _), p => q = p
  | .setException q (some _), p => q = p
  | .setFromFunction q _, p => q = p
  | _, _ => false

namespace ResultPromises

open Placement ResultMemory

/-! ### The ends -/

def producerEnds (promises : ℕ → Option ResultPromise) (p : ℕ) : List ℕ :=
  ((promises p).bind ResultPromise.producer).toList

def consumerEnds (promises : ℕ → Option ResultPromise) (results : ℕ → Option (Option ℕ)) :
    ℕ ⊕ ℕ → List ℕ
  | .inl p => ((promises p).bind ResultPromise.consumer).toList
  | .inr r => (results r).join.toList

variable {promises : ℕ → Option ResultPromise} {results : ℕ → Option (Option ℕ)} {p r id : ℕ}

theorem producerEnds_update {x : Option ResultPromise} :
    producerEnds (update promises p x) =
      update (producerEnds promises) p (x.bind ResultPromise.producer).toList :=
  Function.comp_update (fun y : Option ResultPromise => (y.bind (·.producer)).toList) promises p x

theorem consumerEnds_update {x : Option ResultPromise} :
    consumerEnds (update promises p x) results =
      update (consumerEnds promises results) (.inl p)
        (x.bind ResultPromise.consumer).toList := by
  funext q
  by_cases hq : q = .inl p
  · subst hq
    simp [consumerEnds]
  · rw [update_of_ne hq]
    cases q with
    | inl q =>
      have hqp : q ≠ p := fun h => hq (h ▸ rfl)
      simp [consumerEnds, update_of_ne hqp]
    | inr => rfl

theorem consumerEnds_update_result {x : Option (Option ℕ)} :
    consumerEnds promises (update results r x) =
      update (consumerEnds promises results) (.inr r) x.join.toList := by
  funext q
  by_cases hq : q = .inr r
  · subst hq
    simp [consumerEnds]
  · rw [update_of_ne hq]
    cases q with
    | inl => rfl
    | inr q =>
      have hqr : q ≠ r := fun h => hq (h ▸ rfl)
      simp [consumerEnds, update_of_ne hqr]

theorem held_producerEnds : Held (producerEnds promises) id ↔
    ∃ p x, promises p = some x ∧ x.producer = some id := by
  simp [Held, producerEnds, Option.bind_eq_some_iff]

theorem retrieved_consumerEnds : Retrieved (consumerEnds promises results) id ↔
    ∃ r, results r = some (some id) := by
  simp [Retrieved, consumerEnds, Option.join_eq_some_iff]

theorem held_consumerEnds : Held (consumerEnds promises results) id ↔
    (∃ p x, promises p = some x ∧ x.consumer = some id) ∨ ∃ r, results r = some (some id) := by
  simp [Held, consumerEnds, Option.bind_eq_some_iff, Option.join_eq_some_iff]

/-! ### The invariant -/

structure Ok (s : ResultPromises α ε) : Prop where
  core : Core (producerEnds s.promises) (consumerEnds s.promises s.results) s.memory
  /-- The two ends of a promise belong to the same state. -/
  matched : ∀ p a b, s.promises p = some ⟨some a, some b⟩ → a = b

variable {s u : ResultPromises α ε} {x : ResultPromise}

theorem Ok.matched_update (h : s.Ok) {y : Option ResultPromise}
    (hy : ∀ a b, y = some ⟨some a, some b⟩ → a = b) :
    ∀ q a b, update s.promises p y q = some ⟨some a, some b⟩ → a = b :=
  (forall_update_iff s.promises fun _ x => ∀ a b, x = some ⟨some a, some b⟩ → a = b).2
    ⟨hy, fun q _ => h.matched q⟩

theorem Ok.initial : (initial : ResultPromises α ε).Ok := by
  refine ⟨?_, fun p a b h => by cases h⟩
  have hce : consumerEnds (fun _ => none) (fun _ => none) = fun _ => [] := by
    funext q
    cases q <;> rfl
  exact (hce ▸ Core.initial : Core _ (consumerEnds (fun _ => none) (fun _ => none)) _)

/-- The ends behind an operation that leaves the promise `x` without its producer end. -/
theorem Ok.withoutProducer {m : ResultMemory α ε} (h : s.Ok) (hx : s.promises p = some x)
    (hm : Core (update (producerEnds s.promises) p []) (consumerEnds s.promises s.results) m) :
    Ok { s.setPromise p (some { x with producer := none }) with memory := m } := by
  refine ⟨?_, h.matched_update fun a b hab => by cases hab⟩
  change Core (producerEnds (update s.promises p _))
    (consumerEnds (update s.promises p _) s.results) m
  have hsame : ((some { x with producer := none }).bind ResultPromise.consumer).toList =
      consumerEnds s.promises s.results (.inl p) := by
    simp [consumerEnds, hx]
  rw [producerEnds_update, consumerEnds_update, hsame, update_eq_self]
  exact hm

theorem producerEnds_eq (hx : s.promises p = some x) (hid : x.producer = some id) :
    producerEnds s.promises p = [id] := by
  simp [producerEnds, hx, hid]

/-- Something is stored for the user. -/
theorem Ok.store {v : ProducerContext α (PromiseException ε)} (h : s.Ok)
    (hx : s.promises p = some x) (hid : x.producer = some id) (hv : v ≠ .idle) :
    (s.store p x id v).Ok :=
  h.withoutProducer hx (h.core.store (producerEnds_eq hx hid) hv)

/-! ### A promise gives up what it holds -/

/-- The consumer end of a promise is with no result. -/
theorem Ok.not_retrieved (h : s.Ok) (hx : s.promises p = some x) (hid : x.consumer = some id) :
    ¬ Retrieved (consumerEnds s.promises s.results) id := by
  rintro ⟨r, hr⟩
  have hp : id ∈ consumerEnds s.promises s.results (.inl p) := by simp [consumerEnds, hx, hid]
  cases h.core.consumers.unique hp hr

theorem retrieved_of_update {ce : ℕ ⊕ ℕ → List ℕ} :
    Retrieved (update ce (.inl p) []) id ↔ Retrieved ce id := Iff.rfl

/-- A promise gives up its ends: `operator=` the producer end first, the destructor the consumer
end. -/
theorem Ok.giveUp (h : s.Ok) (hx : s.promises p = some x) :
    Core (update (producerEnds s.promises) p [])
      (update (consumerEnds s.promises s.results) (.inl p) [])
      (((s.breakTaskIfNeeded p x).memory.resetProducer (broken x).producer).resetConsumer
        (broken x).consumer) ∧
    Core (update (producerEnds s.promises) p [])
      (update (consumerEnds s.promises s.results) (.inl p) [])
      (((s.breakTaskIfNeeded p x).memory.resetConsumer (broken x).consumer).resetProducer
        (broken x).producer) := by
  obtain ⟨producer, consumer⟩ := x
  have hpe : producerEnds s.promises p = producer.toList := by simp [producerEnds, hx]
  have hce : consumerEnds s.promises s.results (.inl p) = consumer.toList := by
    simp [consumerEnds, hx]
  cases producer with
  | none =>
    rw [update_of_eq_nil hpe]
    cases consumer with
    | none =>
      rw [update_of_eq_nil hce]
      exact ⟨h.core, h.core⟩
    | some => exact ⟨h.core.consume hce, h.core.consume hce⟩
  | some id =>
    cases consumer with
    | none =>
      rw [update_of_eq_nil hce]
      exact ⟨h.core.broken hpe, h.core.broken hpe⟩
    | some id' =>
      obtain rfl := h.matched p id id' hx
      refine ⟨(h.core.reset hpe (h.not_retrieved hx rfl)).consume hce, ?_⟩
      -- the state is `consumer_done` when the producer end comes, so it is freed and nobody sees it
      exact (h.core.consume hce).reset hpe (mt retrieved_of_update.1 (h.not_retrieved hx rfl))

theorem breakTaskIfNeeded_results : (s.breakTaskIfNeeded p x).results = s.results := by
  obtain ⟨_ | _, _ | _⟩ := x <;> rfl

theorem breakTaskIfNeeded_promises {y : Option ResultPromise} :
    update (s.breakTaskIfNeeded p x).promises p y = update s.promises p y := by
  obtain ⟨_ | _, _ | _⟩ := x
  · rfl
  · rfl
  · exact update_idem ..
  · rfl

theorem Ok.destroy (h : s.Ok) (hx : s.promises p = some x) : (s.destroy p x).Ok := by
  constructor
  case core =>
    change Core (producerEnds (update (s.breakTaskIfNeeded p x).promises p none))
      (consumerEnds (update (s.breakTaskIfNeeded p x).promises p none)
        (s.breakTaskIfNeeded p x).results) _
    rw [breakTaskIfNeeded_promises, breakTaskIfNeeded_results, producerEnds_update,
      consumerEnds_update]
    exact (h.giveUp hx).2
  case matched =>
    change ∀ q a b, update (s.breakTaskIfNeeded p x).promises p none q = _ → a = b
    rw [breakTaskIfNeeded_promises]
    exact h.matched_update fun a b hab => by cases hab

/-! ### Moves -/

section moves

variable {rhs : ℕ} {y : ResultPromise}

theorem Ok.matched_move (h : s.Ok) (hy : s.promises rhs = some y) :
    ∀ q a b, update (update s.promises p (some y)) rhs (some ⟨none, none⟩) q =
      some ⟨some a, some b⟩ → a = b := by
  intro q a b hq
  by_cases hqr : q = rhs
  · subst hqr
    rw [update_self] at hq
    cases hq
  · rw [update_of_ne hqr] at hq
    exact h.matched_update (fun a b hab => h.matched rhs a b (hy.trans hab)) q a b hq

/-- The ends of `rhs` go to the promise `p`, whose own ends are gone. -/
theorem Ok.take {m : ResultMemory α ε} (hne : p ≠ rhs) (hy : s.promises rhs = some y)
    (hm : Core (update (producerEnds s.promises) p [])
      (update (consumerEnds s.promises s.results) (.inl p) []) m) :
    Core (producerEnds (update (update s.promises p (some y)) rhs
        (some ⟨none, none⟩)))
      (consumerEnds (update (update s.promises p (some y)) rhs (some ⟨none, none⟩))
        s.results) m := by
  have hmove := hm.move hne (update_self ..) (update_self ..)
  have hpe : producerEnds s.promises rhs = y.producer.toList := by simp [producerEnds, hy]
  have hce : consumerEnds s.promises s.results (.inl rhs) = y.consumer.toList := by
    simp [consumerEnds, hy]
  rw [update_of_ne hne.symm, update_of_ne (Sum.inl_injective.ne hne.symm), hpe, hce,
    update_idem, update_idem] at hmove
  rw [producerEnds_update, producerEnds_update, consumerEnds_update, consumerEnds_update]
  exact hmove

theorem Ok.moveConstruct (h : s.Ok) (hp : s.promises p = none) (hy : s.promises rhs = some y) :
    ((s.setPromise p (some y)).setPromise rhs (some ⟨none, none⟩)).Ok := by
  have hne : p ≠ rhs := by
    intro hpr
    rw [hpr, hy] at hp
    cases hp
  refine ⟨Ok.take hne hy ?_, h.matched_move hy⟩
  have hpe : producerEnds s.promises p = [] := by simp [producerEnds, hp]
  have hce : consumerEnds s.promises s.results (.inl p) = [] := by simp [consumerEnds, hp]
  rw [update_of_eq_nil hpe, update_of_eq_nil hce]
  exact h.core

theorem Ok.moveAssign (h : s.Ok) (hne : p ≠ rhs) (hx : s.promises p = some x)
    (hy : s.promises rhs = some y) : (s.moveAssign p rhs x y).Ok := by
  constructor
  case core =>
    change Core (producerEnds (update (update
        (s.breakTaskIfNeeded p x).promises p (some y)) rhs (some ⟨none, none⟩)))
      (consumerEnds (update (update
        (s.breakTaskIfNeeded p x).promises p (some y)) rhs (some ⟨none, none⟩))
        (s.breakTaskIfNeeded p x).results) _
    rw [breakTaskIfNeeded_promises, breakTaskIfNeeded_results]
    exact Ok.take hne hy (h.giveUp hx).1
  case matched =>
    change ∀ q a b, update (update (s.breakTaskIfNeeded p x).promises p (some y)) rhs
      (some ⟨none, none⟩) q = _ → a = b
    rw [breakTaskIfNeeded_promises]
    exact h.matched_move hy

end moves

/-! ### Results -/

/-- A result gives up its end. -/
theorem Ok.resetResult {z : Option ℕ} (h : s.Ok) (hr : s.results r = some z) :
    Core (producerEnds s.promises) (update (consumerEnds s.promises s.results) (.inr r) [])
      (s.memory.resetConsumer z) := by
  have hce : consumerEnds s.promises s.results (.inr r) = z.toList := by simp [consumerEnds, hr]
  cases z with
  | none =>
    rw [update_of_eq_nil hce]
    exact h.core
  | some => exact h.core.consume hce

/-- The result `r` has no end of its own any more and takes that of `rhs`. -/
theorem Ok.takeResult {m : ResultMemory α ε} {rhs : ℕ} {z : Option ℕ} (hne : r ≠ rhs)
    (hz : s.results rhs = some z)
    (hm : Core (producerEnds s.promises)
      (update (consumerEnds s.promises s.results) (.inr r) []) m) :
    Core (producerEnds s.promises)
      (consumerEnds s.promises (update (update s.results r (some z)) rhs (some none)))
      m := by
  have hmove := hm.retrieve (Sum.inr_injective.ne hne) (update_self ..)
    fun j hj => .inl ⟨rhs, hj⟩
  have hce : consumerEnds s.promises s.results (.inr rhs) = z.toList := by simp [consumerEnds, hz]
  rw [update_of_ne (Sum.inr_injective.ne hne.symm), hce, update_idem] at hmove
  rw [consumerEnds_update_result, consumerEnds_update_result]
  exact hmove

theorem Ok.getResult (h : s.Ok) (hr : s.results r = none) (hx : s.promises p = some x) {id' : ℕ}
    (hid : x.producer = some id) (hid' : x.consumer = some id') :
    ((s.setPromise p (some { x with consumer := none })).setResultObject r
      (some (some id'))).Ok := by
  obtain rfl : id = id' := by
    refine h.matched p id id' ?_
    rw [hx, ← hid, ← hid']
  have hpe : producerEnds s.promises p = [id] := producerEnds_eq hx hid
  have hce : consumerEnds s.promises s.results (.inl p) = [id] := by simp [consumerEnds, hx, hid']
  have hempty : consumerEnds s.promises s.results (.inr r) = [] := by simp [consumerEnds, hr]
  refine ⟨?_, h.matched_update fun a b hab => ?_⟩
  case refine_2 =>
    have hnone : none = some b := congrArg ResultPromise.consumer (Option.some.inj hab)
    cases hnone
  -- the promise has not been set, so the state is still idle when the result gets it
  have hmove := h.core.retrieve (q := .inl p) Sum.inr_ne_inl hempty fun j hj => by
    rw [hce] at hj
    exact .inr (List.mem_singleton.1 hj ▸ held_of_eq_singleton hpe)
  change Core (producerEnds (update s.promises p _))
    (consumerEnds (update s.promises p _) (update s.results r _)) _
  have hsame : ((some { x with consumer := none }).bind ResultPromise.producer).toList =
      producerEnds s.promises p := by simp [producerEnds, hx]
  rw [producerEnds_update, hsame, update_eq_self, consumerEnds_update_result,
    consumerEnds_update, Function.update_comm Sum.inl_ne_inr]
  rw [hce] at hmove
  exact hmove

/-- `get` on a result that is ready. -/
theorem Ok.get {st : ResultState α (PromiseException ε)} (h : s.Ok)
    (hr : s.results r = some (some id)) (hst : s.memory.states id = some st)
    (hpc : st.pcState = .producerDone) :
    Ok { s.setResultObject r (some none) with memory := s.memory.deleteSelf id } := by
  refine ⟨?_, h.matched⟩
  have hconsume := h.resetResult hr
  simp only [resetConsumer, completeConsumer, hst, if_pos hpc] at hconsume
  change Core _ (consumerEnds s.promises (update s.results r _)) _
  rw [consumerEnds_update_result]
  exact hconsume

theorem Ok.construct (h : s.Ok) (hp : s.promises p = none) :
    Ok { s.setPromise p (some ⟨some s.memory.allocated, some s.memory.allocated⟩) with
      memory := s.memory.allocate } := by
  refine ⟨?_, h.matched_update fun a b hab => by cases hab; rfl⟩
  have hnew := h.core.allocate (p := p) (by simp [producerEnds, hp]) (by simp [consumerEnds, hp])
  change Core (producerEnds (update s.promises p _))
    (consumerEnds (update s.promises p _) s.results) _
  rw [producerEnds_update, consumerEnds_update]
  exact hnew

/-! ### Every operation -/

/-- What an operation can do, with the exception that leaves it.  `same` is an operation that
throws, or an assignment to itself; `lost` is a use of a state that has been freed or is not set,
which the invariant excludes. -/
inductive Effect (s : ResultPromises α ε) :
    PromiseOp α ε → ResultPromises α ε → Option (PromiseError ε) → Prop
  | same {op : PromiseOp α ε} {e : Option (PromiseError ε)}
      (hkept : ∀ p x, s.promises p = some x → x.producer.isSome → op.completes p = false) :
      Effect s op s e
  | construct {p : ℕ} (hp : s.promises p = none) :
      Effect s (.construct p)
        { s.setPromise p (some ⟨some s.memory.allocated, some s.memory.allocated⟩) with
          memory := s.memory.allocate } none
  | moveConstruct {p rhs : ℕ} {y : ResultPromise} (hp : s.promises p = none)
      (hy : s.promises rhs = some y) :
      Effect s (.moveConstruct p rhs)
        ((s.setPromise p (some y)).setPromise rhs (some ⟨none, none⟩)) none
  | moveAssign {p rhs : ℕ} {x y : ResultPromise} (hne : p ≠ rhs) (hx : s.promises p = some x)
      (hy : s.promises rhs = some y) : Effect s (.moveAssign p rhs) (s.moveAssign p rhs x y) none
  | destroy {p : ℕ} {x : ResultPromise} (hx : s.promises p = some x) :
      Effect s (.destroy p) (s.destroy p x) none
  | store {op : PromiseOp α ε} {p : ℕ} {x : ResultPromise} {id : ℕ}
      {v : ProducerContext α (PromiseException ε)} (hx : s.promises p = some x)
      (hid : x.producer = some id) (hv : v ≠ .idle)
      (hop : ∀ q, op.completes q = decide (p = q)) : Effect s op (s.store p x id v) none
  | getResult {p r : ℕ} {x : ResultPromise} {id id' : ℕ} (hr : s.results r = none)
      (hx : s.promises p = some x) (hid : x.producer = some id) (hid' : x.consumer = some id') :
      Effect s (.getResult p r)
        ((s.setPromise p (some { x with consumer := none })).setResultObject r (some (some id')))
          none
  | moveConstructResult {r rhs : ℕ} {z : Option ℕ} (hr : s.results r = none)
      (hz : s.results rhs = some z) : Effect s (.moveConstructResult r rhs)
        ((s.setResultObject r (some z)).setResultObject rhs (some none)) none
  | moveAssignResult {r rhs : ℕ} {x z : Option ℕ} (hne : r ≠ rhs) (hx : s.results r = some x)
      (hz : s.results rhs = some z) :
      Effect s (.moveAssignResult r rhs)
        { (s.setResultObject r (some z)).setResultObject rhs (some none) with
          memory := s.memory.resetConsumer x } none
  | destroyResult {r : ℕ} {z : Option ℕ} (hz : s.results r = some z) :
      Effect s (.destroyResult r)
        { s.setResultObject r none with memory := s.memory.resetConsumer z } none
  | get {r id : ℕ} {st : ResultState α (PromiseException ε)} {e : Option (PromiseError ε)}
      (hr : s.results r = some (some id)) (hst : s.memory.states id = some st)
      (hpc : st.pcState = .producerDone) :
      Effect s (.get r)
        { s.setResultObject r (some none) with memory := s.memory.deleteSelf id } e
  | lost {r id : ℕ} {u : ResultPromises α ε} (hr : s.results r = some (some id))
      (hst : ∀ st, s.memory.states id = some st →
        st.pcState = .producerDone ∧ st.producer = .idle) :
      Effect s (.get r) u none

section effects

variable {op : PromiseOp α ε} {e : Option (PromiseError ε)}

/-- A promise without its producer end is not completed. -/
theorem Effect.empty (hx : s.promises p = some x) (hid : x.producer = none)
    (hop : ∀ q, p ≠ q → op.completes q = false) : Effect s op s e := by
  refine .same fun q y hy hsome => hop q ?_
  rintro rfl
  obtain rfl := Option.some.inj (hx.symm.trans hy)
  simp [hid] at hsome

theorem setResult_effect {value : Except ε α} (hx : s.promises p = some x)
    (hs : s.setResult p x value = (u, e)) : Effect s (.setResult p value) u e := by
  unfold setResult at hs
  cases hid : x.producer with
  | none =>
    simp only [hid] at hs
    cases hs
    refine .empty hx hid fun q hne => ?_
    cases value with
    | error => rfl
    | ok => exact decide_eq_false hne
  | some =>
    simp only [hid] at hs
    cases value with
    | error =>
      cases hs
      exact .same fun _ _ _ _ => rfl
    | ok =>
      cases hs
      exact .store hx hid (fun hv => by cases hv) fun _ => rfl

theorem setException_effect {exception : Option ε} (hx : s.promises p = some x)
    (hs : s.setException p x exception = (u, e)) : Effect s (.setException p exception) u e := by
  unfold setException at hs
  cases hid : x.producer with
  | none =>
    simp only [hid] at hs
    cases hs
    refine .empty hx hid fun q hne => ?_
    cases exception with
    | none => rfl
    | some => exact decide_eq_false hne
  | some =>
    simp only [hid] at hs
    cases exception with
    | none =>
      cases hs
      exact .same fun _ _ _ _ => rfl
    | some =>
      cases hs
      exact .store hx hid (fun hv => by cases hv) fun _ => rfl

theorem getResult_effect (hr : s.results r = none) (hx : s.promises p = some x)
    (hs : s.getResult p r x = (u, e)) : Effect s (.getResult p r) u e := by
  obtain ⟨producer, consumer⟩ := x
  cases producer with
  | none =>
    cases hs
    exact .same fun _ _ _ _ => rfl
  | some =>
    cases consumer with
    | none =>
      cases hs
      exact .same fun _ _ _ _ => rfl
    | some =>
      cases hs
      exact .getResult hr hx rfl rfl

theorem get_effect {z : Option ℕ} (hr : s.results r = some z) (hs : s.get r z = some (u, e)) :
    Effect s (.get r) u e := by
  cases z with
  | none =>
    cases hs
    exact .same fun _ _ _ _ => rfl
  | some id =>
    cases hst : s.memory.states id with
    | none =>
      simp only [ResultPromises.get, hst] at hs
      cases hs
      exact .lost hr fun st h => by cases hst.symm.trans h
    | some st =>
      simp only [ResultPromises.get, hst] at hs
      split_ifs at hs with hpc
      cases hv : st.producer with
      | idle =>
        simp only [hv] at hs
        cases hs
        refine .lost hr fun st' h => ?_
        obtain rfl := Option.some.inj (hst.symm.trans h)
        exact ⟨hpc, hv⟩
      | value | exception =>
        simp only [hv] at hs
        cases hs
        exact .get hr hst hpc

theorem exec_effect (hs : s.exec op = some (u, e)) : Effect s op u e := by
  cases op with
  | construct =>
    simp only [exec] at hs
    split_ifs at hs with hp
    cases hs
    exact .construct (Option.isNone_iff_eq_none.1 hp)
  | moveConstruct =>
    simp only [exec] at hs
    split_ifs at hs with hp
    obtain ⟨y, hy, hs⟩ := Option.map_eq_some_iff.1 hs
    cases hs
    exact .moveConstruct (Option.isNone_iff_eq_none.1 hp) hy
  | moveAssign =>
    obtain ⟨x, hx, hs⟩ := Option.bind_eq_some_iff.1 hs
    obtain ⟨y, hy, hs⟩ := Option.map_eq_some_iff.1 hs
    cases hs
    split_ifs with hpr
    · refine .same fun q _ _ _ => ?_
      simp [PromiseOp.completes, hpr]
    · exact .moveAssign hpr hx hy
  | destroy =>
    obtain ⟨x, hx, hs⟩ := Option.map_eq_some_iff.1 hs
    cases hs
    exact .destroy hx
  | setResult =>
    obtain ⟨x, hx, hs⟩ := Option.map_eq_some_iff.1 hs
    exact setResult_effect hx hs
  | setException =>
    obtain ⟨x, hx, hs⟩ := Option.map_eq_some_iff.1 hs
    exact setException_effect hx hs
  | setFromFunction _ outcome =>
    obtain ⟨x, hx, hs⟩ := Option.bind_eq_some_iff.1 hs
    obtain ⟨id, hid, hs⟩ := Option.map_eq_some_iff.1 hs
    cases outcome with
    | ok | error =>
      cases hs
      exact .store hx hid (fun hv => by cases hv) fun _ => rfl
  | getResult =>
    simp only [exec] at hs
    split_ifs at hs with hr
    obtain ⟨x, hx, hs⟩ := Option.map_eq_some_iff.1 hs
    exact getResult_effect (Option.isNone_iff_eq_none.1 hr) hx hs
  | moveConstructResult =>
    simp only [exec] at hs
    split_ifs at hs with hr
    obtain ⟨z, hz, hs⟩ := Option.map_eq_some_iff.1 hs
    cases hs
    exact .moveConstructResult (Option.isNone_iff_eq_none.1 hr) hz
  | moveAssignResult =>
    obtain ⟨x, hx, hs⟩ := Option.bind_eq_some_iff.1 hs
    obtain ⟨z, hz, hs⟩ := Option.map_eq_some_iff.1 hs
    cases hs
    split_ifs with hrr
    · exact .same fun _ _ _ _ => rfl
    · exact .moveAssignResult hrr hx hz
  | destroyResult =>
    obtain ⟨z, hz, hs⟩ := Option.map_eq_some_iff.1 hs
    cases hs
    exact .destroyResult hz
  | get =>
    obtain ⟨z, hz, hs⟩ := Option.bind_eq_some_iff.1 hs
    exact get_effect hz hs

/-- A result never finds a state that is freed, or ready without anything in it. -/
theorem Ok.not_lost (h : s.Ok) (hr : s.results r = some (some id))
    (hst : ∀ st, s.memory.states id = some st → st.pcState = .producerDone ∧ st.producer = .idle) :
    False := by
  obtain ⟨st, hstate, hdone, -⟩ := h.core.retrieved (retrieved_consumerEnds.2 ⟨r, hr⟩)
  obtain ⟨hpc, hidle⟩ := hst st hstate
  exact (hdone hpc).2.1 hidle

theorem Ok.effect (h : s.Ok) (hs : Effect s op u e) : u.Ok := by
  cases hs with
  | same => exact h
  | construct hp => exact h.construct hp
  | moveConstruct hp hy => exact h.moveConstruct hp hy
  | moveAssign hne hx hy => exact h.moveAssign hne hx hy
  | destroy hx => exact h.destroy hx
  | store hx hid hv => exact h.store hx hid hv
  | getResult hr hx hid hid' => exact h.getResult hr hx hid hid'
  | @moveConstructResult r rhs _ hr hz =>
    have hne : r ≠ rhs := by
      intro hrr
      rw [hrr, hz] at hr
      cases hr
    refine ⟨Ok.takeResult hne hz ?_, h.matched⟩
    have hce : consumerEnds s.promises s.results (.inr r) = [] := by simp [consumerEnds, hr]
    rw [update_of_eq_nil hce]
    exact h.core
  | moveAssignResult hne hx hz => exact ⟨Ok.takeResult hne hz (h.resetResult hx), h.matched⟩
  | destroyResult hz =>
    refine ⟨?_, h.matched⟩
    change Core _ (consumerEnds s.promises (update s.results _ _)) _
    rw [consumerEnds_update_result]
    exact h.resetResult hz
  | get hr hst hpc => exact h.get hr hst hpc
  | lost hr hst => exact (h.not_lost hr hst).elim

end effects

theorem ok_of_reachable (h : s.Reachable) : s.Ok := by
  refine Interleaving.Reach.invariant (fun s hs => ?_) (fun s op u h _ hs => ?_) h
  · rw [show s = .initial from hs]
    exact Ok.initial
  · obtain ⟨⟨u, e⟩, hexec, rfl⟩ := Option.map_eq_some_iff.1 hs
    exact h.effect (exec_effect hexec)

/-! ### What is never lost -/

/-- The records about all states are the same. -/
structure SameRecords (m m' : ResultMemory α ε) : Prop where
  allocated : m'.allocated = m.allocated
  sets : m'.sets = m.sets

section records

variable {m m' m'' : ResultMemory α ε}

theorem SameRecords.trans (h : SameRecords m m') (h' : SameRecords m' m'') : SameRecords m m'' :=
  ⟨h'.allocated.trans h.allocated, h'.sets.trans h.sets⟩

theorem sameRecords_completeProducer : SameRecords m (m.completeProducer id) := by
  unfold completeProducer
  split
  · exact ⟨rfl, rfl⟩
  · split <;> exact ⟨rfl, rfl⟩

theorem sameRecords_completeConsumer : SameRecords m (m.completeConsumer id) := by
  unfold completeConsumer
  split
  · exact ⟨rfl, rfl⟩
  · split_ifs <;> exact ⟨rfl, rfl⟩

theorem sameRecords_build {v : ProducerContext α (PromiseException ε)} :
    SameRecords m (m.build id v) := by
  unfold build
  split <;> exact ⟨rfl, rfl⟩

theorem sameRecords_resetProducer {x : Option ℕ} : SameRecords m (m.resetProducer x) := by
  cases x with
  | none => exact ⟨rfl, rfl⟩
  | some => exact sameRecords_completeProducer

theorem sameRecords_resetConsumer {x : Option ℕ} : SameRecords m (m.resetConsumer x) := by
  cases x with
  | none => exact ⟨rfl, rfl⟩
  | some => exact sameRecords_completeConsumer

theorem sameRecords_breakTask : SameRecords s.memory (s.breakTaskIfNeeded p x).memory := by
  obtain ⟨_ | id, _ | id'⟩ := x
  · exact ⟨rfl, rfl⟩
  · exact ⟨rfl, rfl⟩
  · exact sameRecords_build.trans sameRecords_completeProducer
  · exact ⟨rfl, rfl⟩

end records

/-- Allocated states stay so, and what has been stored for the user is never replaced. -/
structure Keeps (m m' : ResultMemory α ε) : Prop where
  allocated : m.allocated ≤ m'.allocated
  sets : ∀ id v, m.sets id = some v → m'.sets id = some v

theorem SameRecords.keeps {m m' : ResultMemory α ε} (h : SameRecords m m') : Keeps m m' :=
  ⟨h.allocated.ge, fun id _ hv => (congrFun h.sets id).trans hv⟩

theorem Ok.keeps {op : PromiseOp α ε} {e : Option (PromiseError ε)} (h : s.Ok)
    (hs : Effect s op u e) : Keeps s.memory u.memory := by
  cases hs with
  | same | moveConstruct | getResult | moveConstructResult | get =>
    exact ⟨le_rfl, fun _ _ hv => hv⟩
  | construct => exact ⟨Nat.le_succ _, fun _ _ hv => hv⟩
  | moveAssign =>
    exact ((sameRecords_breakTask.trans sameRecords_resetProducer).trans
      sameRecords_resetConsumer).keeps
  | destroy =>
    exact ((sameRecords_breakTask.trans sameRecords_resetConsumer).trans
      sameRecords_resetProducer).keeps
  | @store _ p x id v hx hid =>
    -- nothing was stored before, since the promise still had its producer end
    have hunset := (h.core.unset (held_producerEnds.2 ⟨p, x, hx, hid⟩)).2.1
    have hbuild : SameRecords s.memory (s.memory.build id v) := sameRecords_build
    have hdone : SameRecords ((s.memory.build id v).record id v)
        (((s.memory.build id v).record id v).completeProducer id) := sameRecords_completeProducer
    refine ⟨(hdone.allocated.trans hbuild.allocated).ge, fun j w hw => ?_⟩
    have hj : j ≠ id := by
      rintro rfl
      cases hunset.symm.trans hw
    refine (congrFun hdone.sets j).trans ((update_of_ne hj _ _).trans ?_)
    exact (congrFun hbuild.sets j).trans hw
  | moveAssignResult | destroyResult => exact sameRecords_resetConsumer.keeps
  | lost hr hst => exact (h.not_lost hr hst).elim

/-- The producer end of a promise that is set, destroyed or overwritten is gone. -/
theorem Ok.released {op : PromiseOp α ε} {e : Option (PromiseError ε)} (h : s.Ok)
    (hs : Effect s op u e) (hop : op.completes p = true) (hx : s.promises p = some x)
    (hid : x.producer = some id) : ¬ Held (producerEnds u.promises) id := by
  have hmem : id ∈ producerEnds s.promises p := by simp [producerEnds, hx, hid]
  have hclear : ¬ Held (update (producerEnds s.promises) p []) id :=
    fun hheld => (((h.core.producers.clear p).2 id).1 hheld).2 hmem
  cases hs with
  | same hkept =>
    have hfalse := hkept p x hx (by simp [hid])
    cases hfalse.symm.trans hop
  | @moveAssign q rhs y z hne _ hz =>
    obtain rfl : q = p := by
      simp only [PromiseOp.completes, Bool.and_eq_true, decide_eq_true_eq] at hop
      exact hop.1
    change ¬ Held (producerEnds (update (update
      (s.breakTaskIfNeeded q y).promises q (some z)) rhs (some ⟨none, none⟩))) id
    rw [breakTaskIfNeeded_promises, producerEnds_update, producerEnds_update]
    rintro ⟨t, ht⟩
    by_cases htr : t = rhs
    · subst htr
      simp at ht
    rw [update_of_ne htr] at ht
    by_cases htq : t = q
    · subst htq
      -- what it holds now is the end of `rhs`
      have hrhs : id ∈ producerEnds s.promises rhs := by
        simpa [producerEnds, hz] using ht
      exact hne (h.core.producers.unique hmem hrhs)
    · rw [update_of_ne htq] at ht
      exact htq (h.core.producers.unique ht hmem)
  | @destroy q y =>
    obtain rfl : q = p := of_decide_eq_true hop
    change ¬ Held (producerEnds (update (s.breakTaskIfNeeded q y).promises q none)) id
    rw [breakTaskIfNeeded_promises, producerEnds_update]
    exact hclear
  | @store _ q _ _ _ _ _ _ hq =>
    obtain rfl : q = p := of_decide_eq_true ((hq p).symm.trans hop)
    change ¬ Held (producerEnds (update s.promises q _)) id
    rw [producerEnds_update]
    exact hclear
  | construct | moveConstruct | getResult | moveConstructResult | moveAssignResult | destroyResult
  | get => cases hop
  | lost => cases hop

/-! ### The result -/

/-- `set_result`, `set_exception` and `get_result`. -/
def PromiseCall (op : PromiseOp α ε) : Prop :=
  (∃ p value, op = .setResult p value) ∨ (∃ p exception, op = .setException p exception) ∨
    ∃ p r, op = .getResult p r

theorem eq_of_effect_error {op : PromiseOp α ε} {e : PromiseError ε} (hop : PromiseCall op)
    (hs : Effect s op u (some e)) : u = s := by
  rcases hop with ⟨p, value, rfl⟩ | ⟨p, exception, rfl⟩ | ⟨p, r, rfl⟩
  all_goals
    cases hs
    rfl

/-- One promise is set after a setter has thrown; a second one is moved over and a third one
destroyed, so their results find `broken_task`; one result is read and one is dropped. -/
def promiseSchedule : List (PromiseOp ℕ ℕ) :=
  [.construct 0, .getResult 0 0, .setResult 0 (.error 7), .setResult 0 (.ok 5),
    .construct 1, .getResult 1 1, .construct 2, .moveAssign 1 2, .getResult 1 2, .destroy 1,
    .destroy 2, .get 0, .destroyResult 2]

end ResultPromises
end Concurrencpp
