import Concurrencpp.Results.WhenAnyInputs
import Concurrencpp.Results.WakeUp
import Mathlib.Data.List.ReduceOption

/-!
# `when_all`: one coroutine that awaits many results in turn

`when_all` checks its arguments and moves the results into the coroutine `when_all_impl`, which
awaits them one after the other, hops to the resume executor and returns the results.  A result is
the address of its state, and `none` is an empty result; what lies at an address is a `Protocol`, so
that results of different types (the tuple overload) may be passed together.

* `throwIfEmpty`, `whenAll`, `whenAllNone`: the checks of the overloads, and what they leave of the
  caller's results;
* `WhenAll`: the coroutine with the states of its results.  `co_await when_all_awaitable` is
  `result_state_base::await`, the steps of the consumer of that `Protocol`; the handle which the
  state's producer finds there is the coroutine, and calling it takes the coroutine to its next
  result;
* behind the loop, `resume_on` posts the coroutine to the executor, which resumes it or, when it is
  shut down, interrupts it; the `broken_task` then ends the coroutine without a collection to
  return.

`outcomes`, `suspensions` and `resumptions` are records of the run: what each producer has stored,
and how often the coroutine was suspended on each result and was resumed by its producer.
-/

namespace Concurrencpp

variable {ι : Type} {α : ι → Type} {ε χ : Type}

/-! ### The checks -/

/-- What `when_all` throws. -/
inductive WhenAllError
  | emptyResult (message : String)
  | invalidArgument (message : String)
  deriving DecidableEq, Repr

/-- `k_when_all_empty_result_error_msg`. -/
def kWhenAllEmptyResultErrorMsg : String :=
  "concurrencpp::when_all() - one of the result objects is empty."

/-- `k_when_all_null_resume_executor_error_msg`. -/
def kWhenAllNullResumeExecutorErrorMsg : String :=
  "concurrencpp::when_all() - given resume_executor is null."

/-- `throw_if_empty_tuple` and `throw_if_empty_range`. -/
def throwIfEmpty (errorMessage : String) : List (Option ι) → Except WhenAllError Unit
  | [] => .ok ()
  | none :: _ => .error (.emptyResult errorMessage)
  | some _ :: results => throwIfEmpty errorMessage results

/-- `when_all(resume_executor, results...)` and `when_all(resume_executor, begin, end)`: the
collection that `when_all_impl` gets, and what the caller's results are afterwards. -/
def whenAll (resumeExecutor : Option χ) (results : List (Option ι)) :
    Except WhenAllError (List ι) × List (Option ι) :=
  match throwIfEmpty kWhenAllEmptyResultErrorMsg results with
  | .error e => (.error e, results)
  | .ok () =>
      if resumeExecutor.isNone then
        (.error (.invalidArgument kWhenAllNullResumeExecutorErrorMsg), results)
      else (.ok results.reduceOption, results.map fun _ => none)

/-- `when_all(resume_executor)`, whose coroutine returns the empty tuple at once. -/
def whenAllNone (resumeExecutor : Option χ) : Except WhenAllError Unit :=
  if resumeExecutor.isNone then .error (.invalidArgument kWhenAllNullResumeExecutorErrorMsg)
  else .ok ()

variable {results : List (Option ι)}

theorem throwIfEmpty_of_mem {message : String} (h : none ∈ results) :
    throwIfEmpty message results = .error (.emptyResult message) := by
  induction results with
  | nil => cases h
  | cons result _ ih =>
    cases result with
    | none => rfl
    | some => exact ih (by simpa using h)

theorem throwIfEmpty_of_notMem {message : String} (h : none ∉ results) :
    throwIfEmpty message results = .ok () ∧ results.reduceOption.map some = results := by
  induction results with
  | nil => exact ⟨rfl, rfl⟩
  | cons result _ ih =>
    rw [List.mem_cons, not_or] at h
    cases result with
    | none => exact absurd rfl h.1
    | some =>
      obtain ⟨hok, hmap⟩ := ih h.2
      refine ⟨hok, ?_⟩
      rw [List.reduceOption_cons_of_some, List.map_cons, hmap]

/-- A call with an empty result or without an executor throws, and leaves the results to its
caller. -/
theorem whenAll_throws {resumeExecutor : Option χ} (h : resumeExecutor = none ∨ none ∈ results) :
    ∃ e, whenAll resumeExecutor results = (.error e, results) := by
  unfold whenAll
  by_cases hempty : none ∈ results
  · rw [throwIfEmpty_of_mem hempty]
    exact ⟨_, rfl⟩
  · rw [(throwIfEmpty_of_notMem hempty).1, h.resolve_right hempty]
    exact ⟨_, rfl⟩

/-- Any other call moves the results, each to its own position. -/
theorem whenAll_moves {resumeExecutor : Option χ} (hexecutor : resumeExecutor ≠ none)
    (hresults : none ∉ results) :
    ∃ collection, whenAll resumeExecutor results = (.ok collection, results.map fun _ => none) ∧
      results = collection.map some := by
  have hsome : resumeExecutor.isNone = false := by
    cases resumeExecutor with
    | none => exact absurd rfl hexecutor
    | some => rfl
  obtain ⟨hok, hmap⟩ := throwIfEmpty_of_notMem hresults
  refine ⟨results.reduceOption, ?_, hmap.symm⟩
  unfold whenAll
  rw [hok]
  simp only [hsome]
  rfl

/-! ### The coroutine -/

/-- The moves of a state's producer. -/
def Move.ofProducer {α : Type} : Move α ε → Bool
  | .call _ | .consumer | .timeout => false
  | .setResult _ | .setException _ | .completeProducer _ | .producer => true

/-- Where `when_all_impl` is: at the head of its loop, inside `await` of the result at `i`,
suspended there; at `resume_on`, in the hands of the executor; returned, or ended by
`broken_task`. -/
inductive WhenAllPc (ι : Type)
  | loop (i : ℕ)
  | awaiting (i : ℕ)
  | suspended (i : ℕ)
  | resumeOn
  | posted
  | returned (collection : List ι)
  | broken
  deriving DecidableEq, Repr

/-- `when_all_impl` and the states of its results. -/
structure WhenAll {ι : Type} (α : ι → Type) (ε : Type) where
  states : (r : ι) → Protocol (α r) ε
  collection : List ι
  coroutine : WhenAllPc ι
  outcomes : (r : ι) → ProducerContext (α r) ε
  suspensions : ι → ℕ
  resumptions : ι → ℕ

/-- The coroutine moves, or the executor with the posted coroutine, or the producer of a result. -/
inductive WhenAllMove {ι : Type} (α : ι → Type) (ε : Type)
  | coroutine
  | executor (interrupted : Bool)
  | input (r : ι) (m : Move (α r) ε)

namespace WhenAll

/-- The coroutine starts. -/
def start (states : (r : ι) → Protocol (α r) ε) (collection : List ι) : WhenAll α ε where
  states := states
  collection := collection
  coroutine := .loop 0
  outcomes := fun r => (states r).state.producer
  suspensions := fun _ => 0
  resumptions := fun _ => 0

def goto (s : WhenAll α ε) (pc : WhenAllPc ι) : WhenAll α ε := { s with coroutine := pc }

/-- The executor runs the posted coroutine, or breaks it. -/
def executorStep (s : WhenAll α ε) (interrupted : Bool) : Option (WhenAll α ε) :=
  match s.coroutine with
  | .posted => some (s.goto (if interrupted then .broken else .returned s.collection))
  | _ => none

variable [DecidableEq ι]

def setState (s : WhenAll α ε) (r : ι) (p : Protocol (α r) ε) : WhenAll α ε :=
  { s with states := Function.update s.states r p }

/-- `await_suspend` has returned `true`. -/
def suspend (s : WhenAll α ε) (i : ℕ) (r : ι) : WhenAll α ε :=
  { s.goto (.suspended i) with
    suspensions := Function.update s.suspensions r (s.suspensions r + 1) }

/-- What follows a step inside `await` of the result at `i`: its return, which resumes the coroutine
or leaves it suspended, or its next step. -/
def afterAwait (s : WhenAll α ε) (i : ℕ) (r : ι) : ConsumerPc → WhenAll α ε
  | .ready _ => s.goto (.loop (i + 1))
  | .await (.suspended _) _ => s.suspend i r
  | _ => s

/-- The coroutine's next step; suspended or posted, it has none of its own. -/
def coroutineStep (s : WhenAll α ε) : Option (WhenAll α ε) :=
  match s.coroutine with
  | .loop i =>
      match s.collection[i]? with
      | some r => ((s.states r).call .resolve).map fun p => (s.setState r p).goto (.awaiting i)
      | none => some (s.goto .resumeOn)
  | .awaiting i =>
      match s.collection[i]? with
      | some r => (s.states r).consumerStep.map fun p => (s.setState r p).afterAwait i r p.consumer
      | none => none
  | .suspended _ => none
  -- whether `post` throws or not, the functor resumes the coroutine once
  | .resumeOn => some (s.goto .posted)
  | .posted | .returned _ | .broken => none

/-- The coroutine is suspended on the result `r`. -/
def awaits (s : WhenAll α ε) (r : ι) : Option ℕ :=
  match s.coroutine with
  | .suspended i => if s.collection[i]? = some r then some i else none
  | _ => none

/-- The producer of `r` calls the handle that it has found in the state. -/
def callHandle (s : WhenAll α ε) (r : ι) : WhenAll α ε :=
  let t := { s with resumptions := Function.update s.resumptions r (s.resumptions r + 1) }
  match s.awaits r with
  | some i => t.goto (.loop (i + 1))
  | none => t

/-- The producer of `r` stores its outcome. -/
def recordOutcome (s : WhenAll α ε) (r : ι) (outcome : ProducerContext (α r) ε) : WhenAll α ε :=
  { s with outcomes := Function.update s.outcomes r outcome }

/-- What a step of the producer of `r` means to the coroutine. -/
def afterInput (s : WhenAll α ε) (r : ι) (pc : ProducerPc) : Move (α r) ε → WhenAll α ε
  | .setResult v => s.recordOutcome r (.value v)
  | .setException e => s.recordOutcome r (.exception e)
  | .producer =>
      match pc with
      | .callHandle _ => s.callHandle r
      | _ => s
  | _ => s

/-- A step of the producer of a result.  The consumer of the result is the coroutine. -/
def inputStep (s : WhenAll α ε) (r : ι) (m : Move (α r) ε) : Option (WhenAll α ε) :=
  if r ∈ s.collection ∧ m.ofProducer then
    ((s.states r).step m).map fun p => (s.setState r p).afterInput r (s.states r).producer m
  else none

/-- One step. -/
def step (s : WhenAll α ε) : WhenAllMove α ε → Option (WhenAll α ε)
  | .coroutine => s.coroutineStep
  | .executor interrupted => s.executorStep interrupted
  | .input r m => s.inputStep r m

/-- What the results of a call are: each owns its state, whose consumer is between two calls; the
producers may be anywhere. -/
def Valid (states : (r : ι) → Protocol (α r) ε) (collection : List ι) : Prop :=
  collection.Nodup ∧
    ∀ r ∈ collection, Protocol.Reachable (states r) ∧ ∃ last, (states r).consumer = .ready last

end WhenAll

end Concurrencpp
