import Concurrencpp.Results.SharedAwaiters
import Concurrencpp.Results.Protocol

/-!
# A shared result

`shared_result` over its source: the construction from a `result`, the producer of the source, and
any number of holders, each of which uses its copy of the `shared_result` from one thread or
coroutine.  The state is made of

* `result`, the `result_state` with its producer and, in place of its consumer, the constructor that
  calls `share` and the destructor of the shared state (`Protocol`); `m_status` of the shared state
  is `sharedStatus` there;
* `awaiters`, with the contexts of the coroutines and `on_result_finished` behind its store to
  `m_status` (`SharedAwaiters`);
* `semaphore`, the holders, and the set of the holders that exist, whose last member to go away
  destroys the shared state.

`on_result_finished` is run by the constructor or by the producer; its caller goes on when it is
done (`runner`).  `fresh` numbers the awaitables.  Two fields are records of the run: `finishes`,
how often `on_result_finished` has been called, and `observed`, what the holders' loads of
`m_status` have read, in the order in which they were made.
-/

namespace Concurrencpp

/-- Who runs `on_result_finished`. -/
inductive FinishRunner
  | constructor
  | producer
  deriving DecidableEq, Repr

/-- Where a holder is: absent; between two calls; at the load and in the wait of `wait`; at the head
of the loop of `wait_until`, at its semaphore and at its last load; about to call `get_ref`; or
inside an awaitable.  `AfterWait` tells `get` from `wait`, and `operator co_await` from
`resolve`. -/
inductive HolderPc
  | absent
  | ready
  | wait (k : AfterWait)
  | block (k : AfterWait)
  | waitUntil
  | acquire
  | lastLoad
  | get
  | await (n : ℕ) (k : AfterWait)
  deriving DecidableEq, Repr

/-- The calls of a holder; an awaitable gets the address of its context. -/
inductive HolderOp
  | status
  | wait
  | waitUntil
  | get
  | coAwait (address : ℕ)
  | resolve (address : ℕ)
  | copy (j : ℕ)
  | destroy
  deriving DecidableEq, Repr

/-- A shared result, its source and its holders. -/
structure SharedResult (α ε : Type) where
  result : Protocol α ε
  awaiters : SharedAwaiters
  semaphore : ℕ
  holders : ℕ → HolderPc
  owners : Finset ℕ
  constructed : Bool
  runner : Option FinishRunner
  fresh : ℕ
  finishes : ℕ
  observed : List ResultStatus

/-- The construction of the shared result, the next step of `share`, the return of the constructor;
the producer's steps; the next step of `on_result_finished`; a call of a holder, its next step, the
passing of its deadline and the spurious failure of its compare-exchange; the next step of the
destructor of the shared state. -/
inductive SharedMove (α ε : Type)
  | construct
  | share
  | constructed
  | setResult (object : α)
  | setException (error : ε)
  | completeProducer (doneHandle : Option CoroutineHandle)
  | producer
  | finish
  | call (k : ℕ) (op : HolderOp)
  | holder (k : ℕ)
  | deadline (k : ℕ)
  | spurious (k : ℕ)
  | destructor

namespace SharedResult

variable {α ε : Type}

/-- A result about to be shared. -/
def start (result : Protocol α ε) : SharedResult α ε where
  result := result
  awaiters := .initial
  semaphore := 0
  holders := fun _ => .absent
  owners := ∅
  constructed := false
  runner := none
  fresh := 0
  finishes := 0
  observed := []

/-- `m_status`. -/
def status (s : SharedResult α ε) : ResultStatus := s.result.sharedStatus

/-- `m_semaphore.max() / 2`. -/
def releaseCount : ℕ := (2 ^ 63 - 1) / 2

def setResult (s : SharedResult α ε) (r : Protocol α ε) : SharedResult α ε := { s with result := r }

def setHolder (s : SharedResult α ε) (k : ℕ) (pc : HolderPc) : SharedResult α ε :=
  { s with holders := Function.update s.holders k pc }

/-- A load of `m_status` by a holder. -/
def observe (s : SharedResult α ε) : SharedResult α ε :=
  { s with observed := s.observed ++ [s.status] }

/-- `on_result_finished` is called and stores `m_status`, which is the step of the source to `r`. -/
def startFinish (s : SharedResult α ε) (runner : FinishRunner) (r : Protocol α ε) :
    SharedResult α ε :=
  { s with
    result := r
    awaiters := (s.awaiters.step .start).getD s.awaiters
    runner := some runner
    finishes := s.finishes + 1 }

/-- Where a holder goes on behind a wait. -/
def afterWait : AfterWait → HolderPc
  | .ret => .ready
  | .get => .get

/-! ### Construction, producer and destructor -/

/-- The constructor calls `share` on a result between two calls. -/
def construct (s : SharedResult α ε) : Option (SharedResult α ε) :=
  match s.result.consumer with
  | .ready _ => (s.result.call .share).map s.setResult
  | _ => none

/-- The next step of `share`. -/
def shareStep (s : SharedResult α ε) : Option (SharedResult α ε) :=
  match s.result.consumer with
  | .share .finish => s.result.consumerStep.map (s.startFinish .constructor)
  | .share _ => s.result.consumerStep.map s.setResult
  | _ => none

/-- The constructor returns, and there is a first holder. -/
def finishConstruct (s : SharedResult α ε) : Option (SharedResult α ε) :=
  if s.result.consumer = .share .sharing ∧ s.constructed = false ∧
      (s.runner = some .constructor → s.awaiters.finish = .done) then
    some { s.setHolder 0 .ready with owners := {0}, constructed := true }
  else none

/-- The next step of `complete_producer`; the producer's copy of the shared pointer goes away when
`on_result_finished` has returned. -/
def producerStep (s : SharedResult α ε) : Option (SharedResult α ε) :=
  match s.result.producer with
  | .onResultFinished _ => s.result.producerStep.map (s.startFinish .producer)
  | .dropShared =>
      if s.awaiters.finish = .done then s.result.producerStep.map s.setResult else none
  | _ => s.result.producerStep.map s.setResult

/-- The next step of `on_result_finished`. -/
def finishStep (s : SharedResult α ε) : Option (SharedResult α ε) :=
  s.awaiters.finishStep.map fun a => { s with
    awaiters := a
    semaphore := s.semaphore + if s.awaiters.finish = .release then releaseCount else 0 }

/-- The next step of `~shared_result_state`. -/
def destructorStep (s : SharedResult α ε) : Option (SharedResult α ε) :=
  match s.result.consumer with
  | .rewind _ .complete | .complete _ => s.result.consumerStep.map s.setResult
  | _ => none

/-! ### The holders -/

/-- `await_suspend` of a new awaitable. -/
def await (s : SharedResult α ε) (k address : ℕ) (after : AfterWait) : Option (SharedResult α ε) :=
  (s.awaiters.create s.fresh address).map fun a =>
    { s.setHolder k (.await s.fresh after) with awaiters := a, fresh := s.fresh + 1 }

/-- A holder goes away; the last one leaves the shared state to its destructor, or to the producer's
copy. -/
def destroy (s : SharedResult α ε) (k : ℕ) : Option (SharedResult α ε) :=
  let t := { s.setHolder k .absent with owners := s.owners.erase k }
  if s.owners.erase k = ∅ then (s.result.call .destroy).map t.setResult else some t

/-- A holder begins a call. -/
def call (s : SharedResult α ε) (k : ℕ) (op : HolderOp) : Option (SharedResult α ε) :=
  if s.holders k = .ready then
    match op with
    | .status => some s.observe
    | .wait => some (s.setHolder k (.wait .ret))
    | .waitUntil => some (s.setHolder k .waitUntil)
    | .get => some (s.setHolder k (.wait .get))
    | .coAwait address => s.await k address .get
    | .resolve address => s.await k address .ret
    | .copy j =>
        if s.holders j = .absent then
          some { s.setHolder j .ready with owners := insert j s.owners }
        else none
    | .destroy => s.destroy k
  else none

/-- The next step of a holder inside an awaitable: `await`, or `await_resume` and the destruction of
the awaitable. -/
def awaitStep (s : SharedResult α ε) (k n : ℕ) (after : AfterWait) : Option (SharedResult α ε) :=
  (s.awaiters.awaitableStep n).map fun a =>
    if s.awaiters.awaitables n = .returned then
      { s.setHolder k .ready with
        awaiters := a
        result := if after = .get then s.result.assertDone else s.result }
    else { s with awaiters := a }

/-- The next step of a holder. -/
def holderStep (s : SharedResult α ε) (k : ℕ) : Option (SharedResult α ε) :=
  match s.holders k with
  | .absent | .ready => none
  | .wait after =>
      some (s.observe.setHolder k (if s.status = .idle then .block after else afterWait after))
  -- `m_status.wait` returns only once the value has changed
  | .block after => if s.status = .idle then none else some (s.setHolder k (afterWait after))
  | .waitUntil => some (s.observe.setHolder k (if s.status = .idle then .acquire else .lastLoad))
  | .acquire =>
      if s.semaphore = 0 then none
      else some { s.setHolder k .waitUntil with semaphore := s.semaphore - 1 }
  | .lastLoad => some (s.observe.setHolder k .ready)
  -- `get_ref`
  | .get => some { s.setHolder k .ready with result := s.result.assertDone }
  | .await n after => s.awaitStep k n after

/-- The deadline of `wait_until` has passed, or its semaphore gives up. -/
def deadline (s : SharedResult α ε) (k : ℕ) : Option (SharedResult α ε) :=
  match s.holders k with
  | .waitUntil => some (s.observe.setHolder k .lastLoad)
  | .acquire => some (s.setHolder k .waitUntil)
  | _ => none

/-- The weak compare-exchange of a holder fails without cause. -/
def spurious (s : SharedResult α ε) (k : ℕ) : Option (SharedResult α ε) :=
  match s.holders k with
  | .await n _ => (s.awaiters.spurious n).map fun a => { s with awaiters := a }
  | _ => none

/-! ### The interleaving -/

/-- One step. -/
def step (s : SharedResult α ε) : SharedMove α ε → Option (SharedResult α ε)
  | .construct => s.construct
  | .share => s.shareStep
  | .constructed => s.finishConstruct
  | .setResult v => (s.result.build (.value v)).map s.setResult
  | .setException e => (s.result.build (.exception e)).map s.setResult
  | .completeProducer h => (s.result.completeProducer h).map s.setResult
  | .producer => s.producerStep
  | .finish => s.finishStep
  | .call k op => s.call k op
  | .holder k => s.holderStep k
  | .deadline k => s.deadline k
  | .spurious k => s.spurious k
  | .destructor => s.destructorStep

/-- A result in whatever state its consumer may have left it, and no shared state yet. -/
def IsInitial (s : SharedResult α ε) : Prop :=
  ∃ result last, Protocol.Reachable result ∧ result.consumer = .ready last ∧ s = start result

/-- The states that some interleaving reaches. -/
def Reachable : SharedResult α ε → Prop := Interleaving.Reachable step IsInitial

end SharedResult
end Concurrencpp
