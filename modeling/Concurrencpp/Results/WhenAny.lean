import Concurrencpp.Results.Registration

/-!
# `when_any`: one coroutine over many results

The awaiting coroutine of `when_any` runs `await_suspend` and `await_resume` over `n` results, while
each result has a producer of its own.  Every input is a `Protocol`: the coroutine takes the steps
of its consumer (`when_any`, then `try_rewind_consumer`), its producer takes its own.  What is added
here is the `when_any_context` that ties them together:

* `m_status`, one atomic word with the values `k_processing`, `k_done_processing` and the address of
  the completed result; the inputs are addressed by their positions;
* the coroutine's program: `any_result_finished` before each input, `resume_inline` when an input is
  found finished, `finish_processing` after the last one, and the loop of `await_resume`;
* `try_resume`, run by a producer that found this context in its input.

Each atomic operation is one step.  `when_any` returns the value of its first load of `m_pc_state`,
also when its compare-exchange failed (`AwaiterPc.registering`).  `continuations` counts how often
the coroutine has gone on past the `co_await`.

A `when_any` may be called on results in any state that their consumer has left them in: fresh,
rewound, or finished, with a producer that is still on its way out of `complete_producer`
(`IsInitial`).  `step_input` shows that each input by itself only takes steps of the `Protocol`.
-/

namespace Concurrencpp

/-- `when_any_context::m_status`. -/
inductive WhenAnyStatus
  | processing
  | doneProcessing
  | completed (result : ℕ)
  deriving DecidableEq, Repr

/-- Inside `when_any_context::try_resume`. -/
inductive TryResumePc
  | load
  | casDone
  | casProcessing
  | callHandle
  | returned
  deriving DecidableEq, Repr

/-- Where the awaiting coroutine is.  In `await_suspend`: before the input `i`, or behind the last
one (`check`); inside `result_state_base::when_any` of the input `i`, whose local `state` is the
value of its first load; in `resume_inline`; at the compare-exchange of `finish_processing`.  Then
suspended, or in `await_resume`: at its load, or at the input `i` of its loop. -/
inductive AwaiterPc
  | check (i : ℕ)
  | registering (i : ℕ) (state : PcState)
  | inlineLoad (i : ℕ)
  | inlineCas (i : ℕ)
  | finishCas
  | suspended
  | completedResult
  | rewinding (i : ℕ) (completed : WhenAnyStatus) (index : Option ℕ)
  | returned (index : Option ℕ)
  deriving DecidableEq, Repr

/-- The coroutine, its context and its inputs.  `ids i` is the name under which the input `i` knows
the context. -/
structure WhenAny (α ε : Type) (n : ℕ) where
  inputs : Fin n → Protocol α ε
  ids : Fin n → ℕ
  status : WhenAnyStatus
  awaiter : AwaiterPc
  tries : Fin n → TryResumePc
  continuations : ℕ
  assertFailed : Bool

/-- The coroutine moves, or the producer of an input. -/
inductive WhenAnyMove (α ε : Type) (n : ℕ)
  | awaiter
  | input (i : Fin n) (m : Move α ε)

namespace WhenAny

variable {α ε : Type} {n : ℕ}

/-- The `co_await` begins. -/
def start (inputs : Fin n → Protocol α ε) : WhenAny α ε n where
  inputs := inputs
  ids := fun i => (inputs i).fresh
  status := .processing
  awaiter := .check 0
  tries := fun _ => .load
  continuations := 0
  assertFailed := false

/-! ### Elementary operations -/

def goto (s : WhenAny α ε n) (pc : AwaiterPc) : WhenAny α ε n := { s with awaiter := pc }

def check (s : WhenAny α ε n) (b : Bool) : WhenAny α ε n :=
  { s with assertFailed := s.assertFailed || !b }

def setStatus (s : WhenAny α ε n) (st : WhenAnyStatus) : WhenAny α ε n := { s with status := st }

def setInput (s : WhenAny α ε n) (i : Fin n) (p : Protocol α ε) : WhenAny α ε n :=
  { s with inputs := Function.update s.inputs i p }

def setTry (s : WhenAny α ε n) (i : Fin n) (pc : TryResumePc) : WhenAny α ε n :=
  { s with tries := Function.update s.tries i pc }

/-- The coroutine goes on past the `co_await`, to `await_resume`. -/
def proceed (s : WhenAny α ε n) : WhenAny α ε n :=
  { s with awaiter := .completedResult, continuations := s.continuations + 1 }

/-- `m_coro_handle()`. -/
def callHandle (s : WhenAny α ε n) : WhenAny α ε n :=
  if s.awaiter = .suspended then s.proceed
  else { s with continuations := s.continuations + 1 }

/-! ### The coroutine -/

/-- The head of the loop of `await_suspend`: `any_result_finished`, then the call of `when_any` on
the input `i`; or, behind the last input, the assert of `finish_processing`. -/
def checkStep (s : WhenAny α ε n) (i : ℕ) : Option (WhenAny α ε n) :=
  let t := s.check (s.status ≠ .doneProcessing)
  if h : i < n then
    if s.status = .processing then
      ((s.inputs ⟨i, h⟩).call .whenAny).map fun p =>
        (t.setInput ⟨i, h⟩ p).goto (.registering i .idle)
    else some t.proceed
  else some (t.goto .finishCas)

/-- What follows the return of `when_any` on the input `i`. -/
def afterWhenAny (i : ℕ) (state : PcState) : AwaiterPc :=
  if state = .producerDone then .inlineLoad i else .check (i + 1)

/-- One step inside `result_state_base::when_any` of the input `i`. -/
def registerStep (s : WhenAny α ε n) (i : ℕ) (state : PcState) : Option (WhenAny α ε n) :=
  if h : i < n then
    let p := s.inputs ⟨i, h⟩
    let state := if p.consumer = .whenAny .load then p.state.pcState else state
    p.consumerStep.map fun q => (s.setInput ⟨i, h⟩ q).goto
      (if q.consumer = .whenAny .pending then afterWhenAny i state else .registering i state)
  else none

/-- The load of `resume_inline`; whatever it finds, `await_suspend` returns `false`. -/
def inlineLoadStep (s : WhenAny α ε n) (i : ℕ) : WhenAny α ε n :=
  let t := s.check (s.status ≠ .doneProcessing)
  if s.status = .processing then t.goto (.inlineCas i) else t.proceed

/-- The compare-exchange of `resume_inline`. -/
def inlineCasStep (s : WhenAny α ε n) (i : ℕ) : WhenAny α ε n :=
  if s.status = .processing then (s.setStatus (.completed i)).proceed else s.proceed

/-- The compare-exchange of `finish_processing`: `await_suspend` returns `true` if it succeeds. -/
def finishStep (s : WhenAny α ε n) : WhenAny α ε n :=
  if s.status = .processing then (s.setStatus .doneProcessing).goto .suspended else s.proceed

/-- One step of `await_resume` at the input `i`: `try_rewind_consumer`, then the comparison with the
completed result; or, behind the last input, the assert on the index. -/
def rewindStep (s : WhenAny α ε n) (i : ℕ) (completed : WhenAnyStatus) (index : Option ℕ) :
    Option (WhenAny α ε n) :=
  if h : i < n then
    match (s.inputs ⟨i, h⟩).consumer with
    | .ready _ => ((s.inputs ⟨i, h⟩).call .tryRewind).map (s.setInput ⟨i, h⟩)
    | _ =>
        (s.inputs ⟨i, h⟩).consumerStep.map fun q => (s.setInput ⟨i, h⟩ q).goto
          (if q.consumer = .ready (some .whenAny) then
            .rewinding (i + 1) completed (if completed = .completed i then some i else index)
          else .rewinding i completed index)
  else some ((s.check index.isSome).goto (.returned index))

/-- The coroutine's next step; suspended, it has none of its own. -/
def awaiterStep (s : WhenAny α ε n) : Option (WhenAny α ε n) :=
  match s.awaiter with
  | .check i => s.checkStep i
  | .registering i state => s.registerStep i state
  | .inlineLoad i => some (s.inlineLoadStep i)
  | .inlineCas i => some (s.inlineCasStep i)
  | .finishCas => some s.finishStep
  | .suspended => none
  | .completedResult => some (s.goto (.rewinding 0 s.status none))
  | .rewinding i completed index => s.rewindStep i completed index
  | .returned _ => none

/-! ### The producers -/

/-- `try_resume` returns: the producer of the input `i` goes on. -/
def leave (s : WhenAny α ε n) (i : Fin n) : Option (WhenAny α ε n) :=
  (s.inputs i).producerStep.map fun q => (s.setInput i q).setTry i .returned

/-- `when_any_context::try_resume`, called with the input `i`. -/
def tryResumeStep (s : WhenAny α ε n) (i : Fin n) : Option (WhenAny α ε n) :=
  match s.tries i with
  | .load =>
      match s.status with
      | .completed _ => s.leave i
      | .doneProcessing => some (s.setTry i .casDone)
      | .processing => some (s.setTry i .casProcessing)
  | .casDone =>
      if s.status = .doneProcessing then some ((s.setStatus (.completed i)).setTry i .callHandle)
      else s.leave i
  | .casProcessing =>
      if s.status = .processing then (s.setStatus (.completed i)).leave i
      else some (s.setTry i .load)
  | .callHandle => s.callHandle.leave i
  | .returned => none

/-- A step of the producer of the input `i`.  The consumer of the input is the coroutine. -/
def inputStep (s : WhenAny α ε n) (i : Fin n) : Move α ε → Option (WhenAny α ε n)
  | .call _ | .consumer | .timeout => none
  | .producer =>
      if (s.inputs i).producer = .tryResume (s.ids i) then s.tryResumeStep i
      else (s.inputs i).producerStep.map (s.setInput i)
  | m => ((s.inputs i).step m).map (s.setInput i)

/-! ### The interleaving -/

/-- One step. -/
def step (s : WhenAny α ε n) : WhenAnyMove α ε n → Option (WhenAny α ε n)
  | .awaiter => s.awaiterStep
  | .input i m => s.inputStep i m

/-- The results are valid, and their consumer is between two calls. -/
def IsInitial (s : WhenAny α ε n) : Prop :=
  ∃ inputs : Fin n → Protocol α ε,
    (∀ i, Protocol.Reachable (inputs i) ∧ ∃ last, (inputs i).consumer = .ready last) ∧
      s = start inputs

/-- The states that some interleaving reaches. -/
def Reachable : WhenAny α ε n → Prop := Interleaving.Reachable step IsInitial

end WhenAny

end Concurrencpp
