import Concurrencpp.Results.ResultState

/-!
# One producer and one consumer over a `result_state`

The two parties of a `result_state` as one interleaved program.  Every atomic operation on
`m_pc_state`, every access to `m_consumer`, every notification and `delete_self` is a step of its
own; the non-atomic reads of `m_producer` go with the atomic load before them.

The consumer may call, in any order and any number of times, what `result<type>`,
`resolve_awaitable<type>`, the `when_any` awaitable and `shared_result<type>` let it call on the
state:

* `status`, `wait`, `wait_for`, `wait_until`, `resolve` (`await`, then the result again);
* `when_any`, followed by the `try_rewind_consumer` of `await_resume`.  The rest of the `when_any`
  call is the environment here: it may resume the coroutine at any moment, also before
  `await_suspend` has come to this result, so that only `try_rewind_consumer` is called;
* `share`, followed by the life of the shared state: its holders read the result once it is
  finished, and the last owner to go away runs `~shared_result_state`, which is
  `try_rewind_consumer` and then `complete_consumer`;
* `get` and `co_await`, which end with `complete_joined_consumer`, and the destruction of the
  result, `complete_consumer`.

The producer builds a value or an exception and calls `complete_producer` once.

Four fields are not memory of the program but records of the run: `registered`, what the consumer
has published by its last successful compare-exchange and has not taken back; `stored`, the last
context it stored; `woken`, whom the producer has woken; `deletions`, how often `delete_self` ran.
`assertFailed` is set by an `assert` of the source that does not hold.
-/

namespace Concurrencpp

/-- Whom the producer has to wake: a thread blocked in `wait`, a suspended coroutine, the
semaphore of a `wait_for`, a `when_any` context, a shared state. -/
inductive Waiter
  | thread
  | coroutine (handle : ℕ)
  | semaphore (waitForCtx : ℕ)
  | whenAny (whenAnyCtx : ℕ)
  | sharedState (sharedCtx : ℕ)
  deriving DecidableEq, Repr

/-- The consumer context under which a waiter is registered; a thread in `wait` has none. -/
def Waiter.context : Waiter → ConsumerContext
  | .thread => .idle
  | .coroutine h => .await h
  | .semaphore i => .waitFor i
  | .whenAny c => .whenAny c
  | .sharedState p => .shared p

/-! ### Program points -/

/-- Inside `result_state_base::wait`. -/
inductive WaitPc
  | load
  | cas
  | loop
  | block
  | assertDone
  deriving DecidableEq, Repr

/-- Inside `result_state_base::await`, or suspended by it. -/
inductive AwaitPc
  | load
  | set
  | cas (handle : ℕ)
  | assertDone
  | suspended (handle : ℕ)
  deriving DecidableEq, Repr

/-- Inside `result_state::wait_for`. -/
inductive WaitForPc
  | load
  | set
  | cas (ctx : ℕ)
  | acquire (ctx : ℕ)
  | sync
  | assertDone
  | rewind (ctx : ℕ)
  | clear
  deriving DecidableEq, Repr

/-- Inside `result_state_base::when_any`, or between it and `await_resume`. -/
inductive WhenAnyPc
  | load
  | set
  | cas (ctx : ℕ)
  | assertDone
  | pending
  deriving DecidableEq, Repr

/-- Inside `result_state_base::try_rewind_consumer`. -/
inductive RewindPc
  | load
  | cas
  | assertDone
  | clear
  deriving DecidableEq, Repr

/-- Inside `result_state_base::share`; then the shared state lives (`sharing`), and its holders may
be gone while the producer's copy keeps it alive (`dropped`). -/
inductive SharePc
  | load
  | set
  | cas (ctx : ℕ)
  | assertDone
  | finish
  | sharing
  | dropped
  deriving DecidableEq, Repr

/-- Inside `result_state::get` and `complete_joined_consumer`. -/
inductive JoinedPc
  | get
  | assertDone
  | delete
  deriving DecidableEq, Repr

/-- Inside `result_state::complete_consumer`. -/
inductive CompletePc
  | load
  | exchange
  | delete
  deriving DecidableEq, Repr

/-- What follows a blocking call: the return to its caller, or `get` on the joined state. -/
inductive AfterWait
  | ret
  | get
  deriving DecidableEq, Repr

/-- What follows `try_rewind_consumer`: the return from `await_resume`, or `complete_consumer` in
the destructor of the shared state. -/
inductive AfterRewind
  | ret
  | complete
  deriving DecidableEq, Repr

/-- The answer of the consumer's last call. -/
inductive Ret
  | status (status : ResultStatus)
  | wait
  | waitFor (status : ResultStatus)
  | resolve
  | whenAny
  deriving DecidableEq, Repr

/-- Where the consumer is. -/
inductive ConsumerPc
  | ready (last : Option Ret)
  | status
  | wait (pc : WaitPc) (k : AfterWait)
  | await (pc : AwaitPc) (k : AfterWait)
  | waitFor (pc : WaitForPc)
  | whenAny (pc : WhenAnyPc)
  | rewind (pc : RewindPc) (k : AfterRewind)
  | share (pc : SharePc)
  | joined (pc : JoinedPc)
  | complete (pc : CompletePc)
  | finished
  deriving DecidableEq, Repr

/-- Where a finished blocking call continues. -/
def AfterWait.next (r : Ret) : AfterWait → ConsumerPc
  | .ret => .ready (some r)
  | .get => .joined .get

/-- Where `try_rewind_consumer` continues. -/
def AfterRewind.next : AfterRewind → ConsumerPc
  | .ret => .ready (some .whenAny)
  | .complete => .complete .load

/-- A holder of the shared state is alive: `share` runs inside its constructor. -/
def ConsumerPc.holdsShared : ConsumerPc → Bool
  | .share .dropped => false
  | .share _ => true
  | _ => false

/-- Where the producer is: before `complete_producer`, at its exchange, in the switch of
`resume_consumer` and in its branches, or past its last step. -/
inductive ProducerPc
  | building
  | built
  | exchange
  | resume
  | resumeAwait
  | resumeWaitFor
  | resumeWhenAny
  | resumeShared
  | callHandle (handle : ℕ)
  | releaseSemaphore (ctx : ℕ)
  | tryResume (ctx : ℕ)
  | lockShared (ctx : ℕ)
  | onResultFinished (ctx : ℕ)
  | dropShared
  | notify
  | delete
  | done
  deriving DecidableEq, Repr

/-- The producer has exchanged `m_pc_state`. -/
def ProducerPc.published : ProducerPc → Bool
  | .building | .built | .exchange => false
  | _ => true

/-- The producer owns a copy of the shared pointer. -/
def ProducerPc.holdsShared : ProducerPc → Bool
  | .onResultFinished _ | .dropShared => true
  | _ => false

/-- The consumer's calls. `waitUntil` carries whether the clock has already passed the deadline. -/
inductive Op
  | status
  | wait
  | waitFor
  | waitUntil (expired : Bool)
  | resolve
  | whenAny
  | tryRewind
  | share
  | get
  | coAwait
  | destroy
  deriving DecidableEq, Repr

/-- The first program point of a call on a result. -/
def Op.entry : Op → ConsumerPc
  | .status | .waitUntil true => .status
  | .wait => .wait .load .ret
  | .waitFor | .waitUntil false => .waitFor .load
  | .resolve => .await .load .ret
  | .whenAny => .whenAny .load
  | .tryRewind => .rewind .load .ret
  | .share => .share .load
  | .get => .wait .load .get
  | .coAwait => .await .load .get
  | .destroy => .complete .load

/-- The labels of the interleaving: a call of the consumer, its next step, the timeout of its
semaphore, and the producer's steps, the first of which choose the outcome and the handle that
`complete_producer` gets. -/
inductive Move (α ε : Type)
  | call (op : Op)
  | consumer
  | timeout
  | setResult (object : α)
  | setException (error : ε)
  | completeProducer (doneHandle : Option CoroutineHandle)
  | producer

/-- The global state. -/
structure Protocol (α ε : Type) where
  state : ResultState α ε
  consumer : ConsumerPc
  producer : ProducerPc
  permits : ℕ → ℕ
  fresh : ℕ
  sharedStatus : ResultStatus
  assertFailed : Bool
  registered : Option Waiter
  stored : ConsumerContext
  woken : List Waiter
  deletions : ℕ

namespace Protocol

variable {α ε : Type}

/-- A fresh state, held by both parties. -/
def initial : Protocol α ε where
  state := .initial
  consumer := .ready none
  producer := .building
  permits := fun _ => 0
  fresh := 0
  sharedStatus := .idle
  assertFailed := false
  registered := none
  stored := .idle
  woken := []
  deletions := 0

/-! ### Elementary operations -/

/-- The consumer goes on at `pc`. -/
def goto (s : Protocol α ε) (pc : ConsumerPc) : Protocol α ε := { s with consumer := pc }

@[simp] theorem goto_consumer (s : Protocol α ε) (pc : ConsumerPc) : (s.goto pc).consumer = pc :=
  rfl

/-- The producer goes on at `pc`. -/
def produce (s : Protocol α ε) (pc : ProducerPc) : Protocol α ε := { s with producer := pc }

/-- `assert(b)`. -/
def check (s : Protocol α ε) (b : Bool) : Protocol α ε :=
  { s with assertFailed := s.assertFailed || !b }

/-- `assert_done`. -/
def assertDone (s : Protocol α ε) : Protocol α ε := s.check (s.state.pcState = .producerDone)

/-- A store to `m_pc_state`: the write of an exchange or of a successful compare-exchange. -/
def setPcState (s : Protocol α ε) (st : PcState) : Protocol α ε :=
  { s with state := { s.state with pcState := st } }

/-- `consumer_context::set_await_handle` and its three siblings, on the context `c`: the assert,
then the two stores. -/
def setContext (s : Protocol α ε) (c : ConsumerContext) : Protocol α ε :=
  { s.check (s.state.consumer = .idle) with
    state := { s.state with consumer := c }
    stored := c
    fresh := s.fresh + 1 }

/-- `consumer_context::clear`. -/
def clearContext (s : Protocol α ε) : Protocol α ε :=
  { s with state := { s.state with consumer := .idle } }

/-- The successful compare-exchange from `idle` to `st`, which publishes the waiter `w`. -/
def register (s : Protocol α ε) (w : Waiter) (st : PcState) : Protocol α ε :=
  { s.setPcState st with registered := some w }

/-- The successful compare-exchange from `consumer_set` back to `idle`. -/
def unregister (s : Protocol α ε) : Protocol α ε :=
  { s.setPcState .idle with registered := none }

/-- `delete_self`, with its assert on the done handle. -/
def deleteSelf (s : Protocol α ε) : Protocol α ε :=
  { s.check (s.state.doneHandle.all CoroutineHandle.done) with deletions := s.deletions + 1 }

/-- The producer wakes `w`. -/
def wake (s : Protocol α ε) (w : Waiter) : Protocol α ε := { s with woken := s.woken ++ [w] }

/-- The part of `shared_result_state::on_result_finished` that touches this state:
`m_status.store(m_result_state->status())`, with the assert inside `status`. -/
def onResultFinished (s : Protocol α ε) : Protocol α ε :=
  { s.check (s.state.pcState ≠ .consumerSet) with sharedStatus := s.state.status }

/-! ### The consumer -/

/-- `result_state_base::wait`. -/
def waitStep (s : Protocol α ε) (k : AfterWait) : WaitPc → Option (Protocol α ε)
  | .load =>
      if s.state.pcState = .producerDone then some (s.goto (k.next .wait))
      else some (s.goto (.wait .cas k))
  | .cas =>
      if s.state.pcState = .idle then
        some ((s.register .thread .consumerWaiting).goto (.wait .loop k))
      else some (s.goto (.wait .assertDone k))
  | .loop =>
      if s.state.pcState = .producerDone then some (s.goto (.wait .assertDone k))
      else some (s.goto (.wait .block k))
  -- `m_pc_state.wait` returns only once the value has changed
  | .block =>
      if s.state.pcState = .consumerWaiting then none else some (s.goto (.wait .loop k))
  | .assertDone => some (s.assertDone.goto (k.next .wait))

/-- `result_state_base::await`. A suspended coroutine has no step of its own. -/
def awaitStep (s : Protocol α ε) (k : AfterWait) : AwaitPc → Option (Protocol α ε)
  | .load =>
      if s.state.pcState = .producerDone then some (s.goto (k.next .resolve))
      else some (s.goto (.await .set k))
  | .set => some ((s.setContext (.await s.fresh)).goto (.await (.cas s.fresh) k))
  | .cas h =>
      if s.state.pcState = .idle then
        some ((s.register (.coroutine h) .consumerSet).goto (.await (.suspended h) k))
      else some (s.goto (.await .assertDone k))
  | .assertDone => some (s.assertDone.goto (k.next .resolve))
  | .suspended _ => none

/-- `result_state::wait_for`. -/
def waitForStep (s : Protocol α ε) : WaitForPc → Option (Protocol α ε)
  | .load =>
      if s.state.pcState = .producerDone then
        some (s.goto (.ready (some (.waitFor s.state.producer.status))))
      else some (s.goto (.waitFor .set))
  | .set => some ((s.setContext (.waitFor s.fresh)).goto (.waitFor (.cas s.fresh)))
  | .cas i =>
      if s.state.pcState = .idle then
        some ((s.register (.semaphore i) .consumerSet).goto (.waitFor (.acquire i)))
      else some (s.goto (.waitFor .assertDone))
  | .acquire i =>
      if s.permits i = 0 then none
      else some { s.goto (.waitFor .sync) with
        permits := Function.update s.permits i (s.permits i - 1) }
  -- the load that synchronises with the producer; its value is not used
  | .sync => some (s.goto (.waitFor .assertDone))
  | .assertDone => some (s.assertDone.goto (.ready (some (.waitFor s.state.producer.status))))
  | .rewind _ =>
      if s.state.pcState = .consumerSet then some (s.unregister.goto (.waitFor .clear))
      else some (s.goto (.waitFor .assertDone))
  | .clear => some (s.clearContext.goto (.ready (some (.waitFor .idle))))

/-- `result_state_base::when_any`; whatever it returns, `await_resume` comes next. -/
def whenAnyStep (s : Protocol α ε) : WhenAnyPc → Option (Protocol α ε)
  | .load =>
      if s.state.pcState = .producerDone then some (s.goto (.whenAny .pending))
      else some (s.goto (.whenAny .set))
  | .set => some ((s.setContext (.whenAny s.fresh)).goto (.whenAny (.cas s.fresh)))
  | .cas c =>
      if s.state.pcState = .idle then
        some ((s.register (.whenAny c) .consumerSet).goto (.whenAny .pending))
      else some (s.goto (.whenAny .assertDone))
  | .assertDone => some (s.assertDone.goto (.whenAny .pending))
  | .pending => some (s.goto (.rewind .load .ret))

/-- `result_state_base::try_rewind_consumer`. -/
def rewindStep (s : Protocol α ε) (k : AfterRewind) : RewindPc → Option (Protocol α ε)
  | .load =>
      if s.state.pcState = .consumerSet then some (s.goto (.rewind .cas k))
      else some (s.goto k.next)
  | .cas =>
      if s.state.pcState = .consumerSet then some (s.unregister.goto (.rewind .clear k))
      else some (s.goto (.rewind .assertDone k))
  | .assertDone => some (s.assertDone.goto k.next)
  | .clear => some (s.clearContext.goto k.next)

/-- `result_state_base::share`. -/
def shareStep (s : Protocol α ε) : SharePc → Option (Protocol α ε)
  | .load =>
      if s.state.pcState = .producerDone then some (s.goto (.share .finish))
      else some (s.goto (.share .set))
  | .set => some ((s.setContext (.shared s.fresh)).goto (.share (.cas s.fresh)))
  | .cas p =>
      if s.state.pcState = .idle then
        some ((s.register (.sharedState p) .consumerSet).goto (.share .sharing))
      else some (s.goto (.share .assertDone))
  | .assertDone => some (s.assertDone.goto (.share .finish))
  | .finish => some (s.onResultFinished.goto (.share .sharing))
  | .sharing | .dropped => none

/-- `result_state::get`, then `complete_joined_consumer`. -/
def joinedStep (s : Protocol α ε) : JoinedPc → Option (Protocol α ε)
  | .get => some (s.assertDone.goto (.joined .assertDone))
  | .assertDone => some (s.assertDone.goto (.joined .delete))
  | .delete => some (s.deleteSelf.goto .finished)

/-- `result_state::complete_consumer`. -/
def completeStep (s : Protocol α ε) : CompletePc → Option (Protocol α ε)
  | .load =>
      if s.state.pcState = .producerDone then some (s.goto (.complete .delete))
      else some (s.goto (.complete .exchange))
  | .exchange =>
      let t := (s.setPcState .consumerDone).check (s.state.pcState ≠ .consumerSet)
      if s.state.pcState = .producerDone then some (t.goto (.complete .delete))
      else some ((t.check (s.state.pcState = .idle)).goto .finished)
  | .delete => some (s.deleteSelf.goto .finished)

/-- The consumer's next step. -/
def consumerStep (s : Protocol α ε) : Option (Protocol α ε) :=
  match s.consumer with
  | .ready _ => none
  | .status =>
      some ((s.check (s.state.pcState ≠ .consumerSet)).goto
        (.ready (some (.status s.state.status))))
  | .wait pc k => s.waitStep k pc
  | .await pc k => s.awaitStep k pc
  | .waitFor pc => s.waitForStep pc
  | .whenAny pc => s.whenAnyStep pc
  | .rewind pc k => s.rewindStep k pc
  | .share pc => s.shareStep pc
  | .joined pc => s.joinedStep pc
  | .complete pc => s.completeStep pc
  | .finished => none

/-- The consumer starts a call.  A holder of the shared state may read the result once the shared
status is no longer idle (`shared_result::get` and `await_resume`), or go away; the last owner
runs the destructor, and while the producer's locked copy exists the holder is not the last. -/
def call (s : Protocol α ε) (op : Op) : Option (Protocol α ε) :=
  match s.consumer, op with
  | .ready _, op => some (s.goto op.entry)
  | .share .sharing, .get => if s.sharedStatus = .idle then none else some s.assertDone
  | .share .sharing, .destroy =>
      some (s.goto (if s.producer.holdsShared then .share .dropped else .rewind .load .complete))
  | _, _ => none

/-- The semaphore of a `wait_for` gives up. -/
def timeout (s : Protocol α ε) : Option (Protocol α ε) :=
  match s.consumer with
  | .waitFor (.acquire i) => some (s.goto (.waitFor (.rewind i)))
  | _ => none

/-! ### The producer -/

/-- The coroutine of the handle is suspended, hence not done. -/
def isSuspended (s : Protocol α ε) (handle : ℕ) : Bool :=
  match s.consumer with
  | .await (.suspended h) _ => h == handle
  | _ => false

/-- The handle is invoked: the coroutine suspended under it goes on in `await_resume`. -/
def resumeHandle (s : Protocol α ε) (handle : ℕ) : Protocol α ε :=
  match s.consumer with
  | .await (.suspended h) k => if h = handle then s.goto (k.next .resolve) else s
  | _ => s

/-- The exchange of `complete_producer` and the switch on the state before it. -/
def exchangeStep (s : Protocol α ε) : Protocol α ε :=
  let t := (s.setPcState .producerDone).check (s.state.pcState ≠ .producerDone)
  match s.state.pcState with
  | .consumerSet => t.produce .resume
  | .idle => t.produce .done
  | .consumerWaiting => t.produce .notify
  | .consumerDone => t.produce .delete
  | .producerDone => (t.check false).produce .done

/-- The switch of `consumer_context::resume_consumer` on `m_status`. -/
def resumeStep (s : Protocol α ε) : Protocol α ε :=
  match s.state.consumer with
  | .idle => s.produce .done
  | .await _ => s.produce .resumeAwait
  | .waitFor _ => s.produce .resumeWaitFor
  | .whenAny _ => s.produce .resumeWhenAny
  | .shared _ => s.produce .resumeShared

/-- The branch that was taken copies the member of the union that it expects. -/
def copyStep (s : Protocol α ε) (pc : ProducerPc) : Protocol α ε :=
  match pc, s.state.consumer with
  | .resumeAwait, .await h => (s.check (s.isSuspended h)).produce (.callHandle h)
  | .resumeWaitFor, .waitFor i => s.produce (.releaseSemaphore i)
  | .resumeWhenAny, .whenAny c => s.produce (.tryResume c)
  | .resumeShared, .shared p => s.produce (.lockShared p)
  | _, _ => (s.check false).produce .done

/-- The producer's next step inside `complete_producer`. -/
def producerStep (s : Protocol α ε) : Option (Protocol α ε) :=
  match s.producer with
  | .building | .built => none
  | .exchange => some s.exchangeStep
  | .resume => some s.resumeStep
  | .resumeAwait => some (s.copyStep .resumeAwait)
  | .resumeWaitFor => some (s.copyStep .resumeWaitFor)
  | .resumeWhenAny => some (s.copyStep .resumeWhenAny)
  | .resumeShared => some (s.copyStep .resumeShared)
  | .callHandle h => some (((s.resumeHandle h).wake (.coroutine h)).produce .done)
  | .releaseSemaphore i =>
      some { (s.wake (.semaphore i)).produce .done with
        permits := Function.update s.permits i (s.permits i + 1) }
  | .tryResume c => some ((s.wake (.whenAny c)).produce .done)
  -- `weak_ptr::lock`
  | .lockShared p =>
      some (s.produce (if s.consumer.holdsShared then .onResultFinished p else .done))
  | .onResultFinished p => some ((s.onResultFinished.wake (.sharedState p)).produce .dropShared)
  -- the locked copy goes away, and the shared state with it if it was the last owner
  | .dropShared =>
      some ((if s.consumer = .share .dropped then s.goto (.rewind .load .complete)
        else s).produce .done)
  | .notify => some ((s.wake .thread).produce .done)
  | .delete => some (s.deleteSelf.produce .done)
  | .done => none

/-- The producer stores its outcome (`set_result`, `set_exception`). -/
def build (s : Protocol α ε) (outcome : ProducerContext α ε) : Option (Protocol α ε) :=
  if s.producer = .building then
    some { s.produce .built with state := { s.state with producer := outcome } }
  else none

/-- `complete_producer(done_handle)` up to the exchange.  A handle is passed only by
`result_publisher::await_suspend`, where its coroutine stands at its final suspend point. -/
def completeProducer (s : Protocol α ε) (doneHandle : Option CoroutineHandle) :
    Option (Protocol α ε) :=
  if s.producer = .built ∧ doneHandle.all CoroutineHandle.done then
    some { s.produce .exchange with state := { s.state with doneHandle := doneHandle } }
  else none

/-! ### The interleaving -/

/-- One step. -/
def step (s : Protocol α ε) : Move α ε → Option (Protocol α ε)
  | .call op => s.call op
  | .consumer => s.consumerStep
  | .timeout => s.timeout
  | .setResult v => s.build (.value v)
  | .setException e => s.build (.exception e)
  | .completeProducer h => s.completeProducer h
  | .producer => s.producerStep

section Inversion

variable {s t : Protocol α ε}

theorem timeout_eq_some (hs : s.timeout = some t) :
    ∃ i, s.consumer = .waitFor (.acquire i) ∧ t = s.goto (.waitFor (.rewind i)) := by
  unfold timeout at hs
  split at hs
  case h_1 i hc =>
    cases hs
    exact ⟨i, hc, rfl⟩
  case h_2 => cases hs

theorem build_eq_some {outcome : ProducerContext α ε} (hs : s.build outcome = some t) :
    s.producer = .building ∧
      t = { s.produce .built with state := { s.state with producer := outcome } } := by
  unfold build at hs
  split_ifs at hs with hp
  cases hs
  exact ⟨hp, rfl⟩

theorem completeProducer_eq_some {handle : Option CoroutineHandle}
    (hs : s.completeProducer handle = some t) :
    (s.producer = .built ∧ handle.all CoroutineHandle.done) ∧
      t = { s.produce .exchange with state := { s.state with doneHandle := handle } } := by
  unfold completeProducer at hs
  split_ifs at hs with hp
  cases hs
  exact ⟨hp, rfl⟩

end Inversion

/-- A fresh result state is the only initial state. -/
def IsInitial (s : Protocol α ε) : Prop := s = initial

/-- The states that some interleaving reaches. -/
def Reachable : Protocol α ε → Prop := Interleaving.Reachable step IsInitial

end Protocol

end Concurrencpp
