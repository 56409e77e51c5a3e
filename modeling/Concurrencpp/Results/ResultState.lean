import Concurrencpp.Interleaving

/-!
# `result_state`: the cell shared by one producer and one consumer

The memory of `details::result_state<type>` (`results/impl/result_state.h`) and of the two contexts
inside it:

* `PcState` is `result_state_base::pc_state`, the value of the atomic `m_pc_state`;
* `ConsumerContext` is `consumer_context`: its `m_status` together with the member of the union
  that is active under it.  Coroutine handles, semaphores, `when_any` contexts and shared states
  are known by their identity, a natural number;
* `ProducerContext` is `producer_context<type>`, over the type `α` of values and the type `ε` of
  exceptions;
* `ResultState` puts them together, with `m_done_handle`.

Every atomic operation of the source is one step of a party in the modules that follow; this
module only says what the cell holds and what can be read from it.
-/

namespace Concurrencpp

/-- `result_status`. -/
inductive ResultStatus
  | idle
  | value
  | exception
  deriving DecidableEq, Repr

/-- `result_state_base::pc_state`. -/
inductive PcState
  | idle
  | consumerSet
  | consumerWaiting
  | consumerDone
  | producerDone
  deriving DecidableEq, Repr

/-- `consumer_context`: the tag `m_status` with the active member of `m_storage`. -/
inductive ConsumerContext
  | idle
  | await (callerHandle : ℕ)
  | waitFor (waitForCtx : ℕ)
  | whenAny (whenAnyCtx : ℕ)
  | shared (sharedCtx : ℕ)
  deriving DecidableEq, Repr

/-- `producer_context<type>`: nothing yet, a value, or an exception. -/
inductive ProducerContext (α ε : Type)
  | idle
  | value (object : α)
  | exception (error : ε)
  deriving DecidableEq, Repr

variable {α ε : Type}

/-- `producer_context::status`. -/
def ProducerContext.status : ProducerContext α ε → ResultStatus
  | .idle => .idle
  | .value _ => .value
  | .exception _ => .exception

@[simp] theorem ProducerContext.status_eq_idle_iff (p : ProducerContext α ε) :
    p.status = .idle ↔ p = .idle := by
  cases p <;> simp [ProducerContext.status]

/-- A coroutine handle, with what `done()` answers for it. -/
structure CoroutineHandle where
  id : ℕ
  done : Bool
  deriving DecidableEq, Repr

/-- `result_state<type>`: `m_pc_state`, `m_consumer`, `m_producer` and `m_done_handle`. -/
structure ResultState (α ε : Type) where
  pcState : PcState
  consumer : ConsumerContext
  producer : ProducerContext α ε
  doneHandle : Option CoroutineHandle
  deriving DecidableEq, Repr

namespace ResultState

/-- The cell as its constructor leaves it. -/
def initial : ResultState α ε := ⟨.idle, .idle, .idle, none⟩

/-- The value `result_state::status` returns: `idle` when `m_pc_state` is idle, the producer's
status otherwise. -/
def status (s : ResultState α ε) : ResultStatus :=
  if s.pcState = .idle then .idle else s.producer.status

end ResultState

end Concurrencpp
