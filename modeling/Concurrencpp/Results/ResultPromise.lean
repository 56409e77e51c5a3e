import Concurrencpp.Results.ResultState

/-!
# Promises

`result_promise`: an object with both ends of a `result_state`, the consumer end until `get_result`
moves it to a `result`.  Both ends are pointers with deleters of their own: the end of the producer
publishes what has been set, the end of the consumer gives the state up, and whoever comes last
frees it.

* `ResultMemory`: the states that have been allocated, with `set_result`, `set_exception`,
  `complete_producer`, `complete_consumer` and `delete_self`.
* `ResultPromises`: any number of promises and results, and the operations on them one after
  another.  `ResultPromises.exec` gives the state behind an operation and the exception that leaves
  it, if any.

The fields `published`, `freed` and `sets` are records of the run: the states that have become
`producer_done`, those that have been freed, and what `set_result`, `set_exception` and
`set_from_function` have stored.  `failed` says that an assertion has failed or that a state has
been used after it was freed.
-/

namespace Concurrencpp

/-- What a state stores as an exception: one of the user's, or `errors::broken_task`. -/
inductive PromiseException (ε : Type)
  | user (error : ε)
  | brokenTask (message : String)
  deriving DecidableEq, Repr

/-- What leaves an operation: the errors of `result_promise` and `result`, what the constructor of a
value has thrown, and what `get` throws again. -/
inductive PromiseError (ε : Type)
  | emptyResultPromise (message : String)
  | resultAlreadyRetrieved (message : String)
  | invalidArgument (message : String)
  | emptyResult (message : String)
  | thrown (error : ε)
  | stored (exception : PromiseException ε)
  deriving DecidableEq, Repr

/-! ### The states -/

structure ResultMemory (α ε : Type) where
  states : ℕ → Option (ResultState α (PromiseException ε))
  allocated : ℕ
  failed : Bool
  published : List ℕ
  freed : List ℕ
  sets : ℕ → Option (ProducerContext α (PromiseException ε))

namespace ResultMemory

variable {α ε : Type}

def initial : ResultMemory α ε where
  states := fun _ => none
  allocated := 0
  failed := false
  published := []
  freed := []
  sets := fun _ => none

def set (m : ResultMemory α ε) (id : ℕ) (st : Option (ResultState α (PromiseException ε))) :
    ResultMemory α ε :=
  { m with states := Function.update m.states id st }

def fail (m : ResultMemory α ε) : ResultMemory α ε := { m with failed := true }

def check (m : ResultMemory α ε) (b : Bool) : ResultMemory α ε :=
  { m with failed := m.failed || !b }

/-- `new result_state`. -/
def allocate (m : ResultMemory α ε) : ResultMemory α ε :=
  { m.set m.allocated (some .initial) with allocated := m.allocated + 1 }

/-- `delete_self`; the states of promises have no `m_done_handle`. -/
def deleteSelf (m : ResultMemory α ε) (id : ℕ) : ResultMemory α ε :=
  { m.set id none with freed := m.freed ++ [id] }

/-- `build_result` and `build_exception`, when nothing is thrown. -/
def build (m : ResultMemory α ε) (id : ℕ) (producer : ProducerContext α (PromiseException ε)) :
    ResultMemory α ε :=
  match m.states id with
  | none => m.fail
  | some st => (m.set id (some { st with producer := producer })).check (st.producer.status = .idle)

/-- The record of what the user has stored. -/
def record (m : ResultMemory α ε) (id : ℕ) (producer : ProducerContext α (PromiseException ε)) :
    ResultMemory α ε :=
  { m with sets := Function.update m.sets id (some producer) }

/-- `complete_producer`. -/
def completeProducer (m : ResultMemory α ε) (id : ℕ) : ResultMemory α ε :=
  match m.states id with
  | none => m.fail
  | some st =>
      let m := { m.set id (some { st with
        pcState := .producerDone
        doneHandle := none }) with published := m.published ++ [id] }
      match st.pcState with
      -- a consumer that waits is resumed or notified
      | .consumerSet | .idle | .consumerWaiting => m
      | .consumerDone => m.deleteSelf id
      | .producerDone => m.fail

/-- `complete_consumer`. -/
def completeConsumer (m : ResultMemory α ε) (id : ℕ) : ResultMemory α ε :=
  match m.states id with
  | none => m.fail
  | some st =>
      if st.pcState = .producerDone then m.deleteSelf id
      else (m.set id (some { st with pcState := .consumerDone })).check (st.pcState = .idle)

/-- The deleter of `m_producer_state`. -/
def resetProducer (m : ResultMemory α ε) : Option ℕ → ResultMemory α ε
  | none => m
  | some id => m.completeProducer id

/-- The deleter of `m_consumer_state`. -/
def resetConsumer (m : ResultMemory α ε) : Option ℕ → ResultMemory α ε
  | none => m
  | some id => m.completeConsumer id

end ResultMemory

/-! ### The objects -/

/-- `m_producer_state` and `m_consumer_state`. -/
structure ResultPromise where
  producer : Option ℕ
  consumer : Option ℕ
  deriving DecidableEq, Repr

structure ResultPromises (α ε : Type) where
  memory : ResultMemory α ε
  promises : ℕ → Option ResultPromise
  results : ℕ → Option (Option ℕ)

/-- The operations on the promises `p`, `rhs` and on the results `r`, `rhs`.  What the constructor
of a value and a callable do is an `Except`; `none` is a null `exception_ptr`. -/
inductive PromiseOp (α ε : Type)
  | construct (p : ℕ)
  | moveConstruct (p rhs : ℕ)
  | moveAssign (p rhs : ℕ)
  | destroy (p : ℕ)
  | setResult (p : ℕ) (value : Except ε α)
  | setException (p : ℕ) (exception : Option ε)
  | setFromFunction (p : ℕ) (outcome : Except ε α)
  | getResult (p r : ℕ)
  | moveConstructResult (r rhs : ℕ)
  | moveAssignResult (r rhs : ℕ)
  | destroyResult (r : ℕ)
  | get (r : ℕ)

namespace ResultPromises

variable {α ε : Type}

def initial : ResultPromises α ε where
  memory := .initial
  promises := fun _ => none
  results := fun _ => none

def setPromise (s : ResultPromises α ε) (p : ℕ) (x : Option ResultPromise) : ResultPromises α ε :=
  { s with promises := Function.update s.promises p x }

def setResultObject (s : ResultPromises α ε) (r : ℕ) (x : Option (Option ℕ)) : ResultPromises α ε :=
  { s with results := Function.update s.results r x }

/-- `errors::broken_task(k_broken_task_exception_error_msg)`. -/
def brokenTask : ProducerContext α (PromiseException ε) :=
  .exception (.brokenTask "concurrencpp::result - associated task was interrupted abnormally")

/-- Something has been stored in the state, and `m_producer_state.reset()` publishes it. -/
def publish (s : ResultPromises α ε) (p : ℕ) (x : ResultPromise) (id : ℕ)
    (producer : ProducerContext α (PromiseException ε)) : ResultPromises α ε :=
  { s.setPromise p (some { x with producer := none }) with
    memory := (s.memory.build id producer).completeProducer id }

/-- The same with the record that the user has stored it. -/
def store (s : ResultPromises α ε) (p : ℕ) (x : ResultPromise) (id : ℕ)
    (producer : ProducerContext α (PromiseException ε)) : ResultPromises α ε :=
  { s.publish p x id producer with
    memory := ((s.memory.build id producer).record id producer).completeProducer id }

/-- `break_task_if_needed`. -/
def breakTaskIfNeeded (s : ResultPromises α ε) (p : ℕ) (x : ResultPromise) : ResultPromises α ε :=
  match x.producer, x.consumer with
  | some id, none => s.publish p x id brokenTask
  | _, _ => s

/-- The promise behind `break_task_if_needed`. -/
def broken (x : ResultPromise) : ResultPromise :=
  match x.producer, x.consumer with
  | some _, none => ⟨none, none⟩
  | _, _ => x

/-- `operator=(result_promise&&)` of two different promises: the ends of `rhs` are taken over one
after the other, and each of them replaces an end that is reset. -/
def moveAssign (s : ResultPromises α ε) (p rhs : ℕ) (x y : ResultPromise) : ResultPromises α ε :=
  let s := s.breakTaskIfNeeded p x
  let x := broken x
  { (s.setPromise p (some y)).setPromise rhs (some ⟨none, none⟩) with
    memory := (s.memory.resetProducer x.producer).resetConsumer x.consumer }

/-- `~result_promise`: the members are destroyed in reverse order. -/
def destroy (s : ResultPromises α ε) (p : ℕ) (x : ResultPromise) : ResultPromises α ε :=
  let s := s.breakTaskIfNeeded p x
  let x := broken x
  { s.setPromise p none with
    memory := (s.memory.resetConsumer x.consumer).resetProducer x.producer }

/-- `set_result`, `set_exception` and `set_from_function` on the promise `x`. -/
def setResult (s : ResultPromises α ε) (p : ℕ) (x : ResultPromise) (value : Except ε α) :
    ResultPromises α ε × Option (PromiseError ε) :=
  match x.producer with
  | none => (s, some (.emptyResultPromise
      "concurrencpp::result_promise::set_result() - empty result_promise."))
  | some id =>
      match value with
      -- `build_result` throws before it has changed `m_status`
      | .error error => (s, some (.thrown error))
      | .ok value => (s.store p x id (.value value), none)

def setException (s : ResultPromises α ε) (p : ℕ) (x : ResultPromise) (exception : Option ε) :
    ResultPromises α ε × Option (PromiseError ε) :=
  match x.producer with
  | none => (s, some (.emptyResultPromise
      "concurrencpp::result_promise::set_exception() - empty result_promise."))
  | some id =>
      match exception with
      | none => (s, some (.invalidArgument
          "concurrencpp::result_promise::set_exception() - exception pointer is null."))
      | some error => (s.store p x id (.exception (.user error)), none)

/-- `none` is the call of `std::terminate`: the function is `noexcept` and throws on an empty
promise. -/
def setFromFunction (s : ResultPromises α ε) (p : ℕ) (x : ResultPromise) (outcome : Except ε α) :
    Option (ResultPromises α ε × Option (PromiseError ε)) :=
  x.producer.map fun id =>
    match outcome with
    | .ok value => (s.store p x id (.value value), none)
    | .error error => (s.store p x id (.exception (.user error)), none)

/-- `get_result`, into the new result `r`. -/
def getResult (s : ResultPromises α ε) (p r : ℕ) (x : ResultPromise) :
    ResultPromises α ε × Option (PromiseError ε) :=
  match x.producer, x.consumer with
  -- the message is that of `result::get`
  | none, _ => (s, some (.emptyResultPromise "concurrencpp::result::get() - result is empty."))
  | some _, none => (s, some (.resultAlreadyRetrieved
      "concurrencpp::result_promise::get_result() - result was already retrieved."))
  | some _, some id =>
      ((s.setPromise p (some { x with consumer := none })).setResultObject r (some (some id)), none)

/-- `result::get`; `none` is the wait for the producer. -/
def get (s : ResultPromises α ε) (r : ℕ) (x : Option ℕ) :
    Option (ResultPromises α ε × Option (PromiseError ε)) :=
  match x with
  | none => some (s, some (.emptyResult "concurrencpp::result::get() - result is empty."))
  | some id =>
      match s.memory.states id with
      | none => some ({ s with memory := s.memory.fail }, none)
      | some st =>
          if st.pcState = .producerDone then
            let s' := { s.setResultObject r (some none) with memory := s.memory.deleteSelf id }
            match st.producer with
            | .idle => some ({ s' with memory := s'.memory.fail }, none)
            | .value _ => some (s', none)
            | .exception exception => some (s', some (.stored exception))
          else none

/-- An operation: what it leaves, and the exception that leaves it.  `none` when an object does not
live, or lives already. -/
def exec (s : ResultPromises α ε) :
    PromiseOp α ε → Option (ResultPromises α ε × Option (PromiseError ε))
  | .construct p =>
      if (s.promises p).isNone then
        let id := s.memory.allocated
        some ({ s.setPromise p (some ⟨some id, some id⟩) with memory := s.memory.allocate }, none)
      else none
  | .moveConstruct p rhs =>
      if (s.promises p).isNone then (s.promises rhs).map fun y =>
        ((s.setPromise p (some y)).setPromise rhs (some ⟨none, none⟩), none)
      else none
  | .moveAssign p rhs => (s.promises p).bind fun x => (s.promises rhs).map fun y =>
      (if p = rhs then s else s.moveAssign p rhs x y, none)
  | .destroy p => (s.promises p).map fun x => (s.destroy p x, none)
  | .setResult p value => (s.promises p).map fun x => s.setResult p x value
  | .setException p exception => (s.promises p).map fun x => s.setException p x exception
  | .setFromFunction p outcome => (s.promises p).bind fun x => s.setFromFunction p x outcome
  | .getResult p r =>
      if (s.results r).isNone then (s.promises p).map fun x => s.getResult p r x else none
  | .moveConstructResult r rhs =>
      if (s.results r).isNone then (s.results rhs).map fun y =>
        ((s.setResultObject r (some y)).setResultObject rhs (some none), none)
      else none
  | .moveAssignResult r rhs => (s.results r).bind fun x => (s.results rhs).map fun y =>
      (if r = rhs then s
        else { (s.setResultObject r (some y)).setResultObject rhs (some none) with
          memory := s.memory.resetConsumer x }, none)
  | .destroyResult r => (s.results r).map fun x =>
      ({ s.setResultObject r none with memory := s.memory.resetConsumer x }, none)
  | .get r => (s.results r).bind fun x => s.get r x

def step (s : ResultPromises α ε) (op : PromiseOp α ε) : Option (ResultPromises α ε) :=
  (s.exec op).map Prod.fst

def IsInitial (s : ResultPromises α ε) : Prop := s = initial

/-- The states that some sequence of operations reaches. -/
def Reachable : ResultPromises α ε → Prop := Interleaving.Reachable step IsInitial

end ResultPromises
end Concurrencpp
