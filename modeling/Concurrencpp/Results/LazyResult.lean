import Concurrencpp.Results.ResultState

/-!
# Lazy results

A lazy task is a coroutine frame that suspends at once; `lazy_result` holds its handle, and so do,
in turn, the two awaitables and the local `self` of `run_impl`.  A coroutine that awaits such an
awaitable writes its own handle into the frame and jumps into the body, and the final suspension of
the body jumps back.

* `LazyFrame`: what `lazy_result_state` holds, with the point the body is at;
* `LazyResults`: any number of frames, of objects with an `m_state` and of awaiting coroutines;
* `LazyResults.step`: the operations of the source, one after another in any order, and what bodies
  do between them;
* `LazyResults.runImpl`: the operations of `run`.  Its coroutine `run_impl` is one of the awaiting
  coroutines, its local `self` one of the `lazy_result` objects and the temporary of its `co_await`
  one of the awaitables.

An awaitable is an object of its own: it may be awaited where it is made or later, and by any
coroutine.  What its `co_await` does is three steps, since other code runs while the body does:
`await` is `await_ready` and `await_suspend`, the final suspension is the end of
`BodyEvent.returnValue` or `BodyEvent.throwException`, and `awaitResume` or `resolveResume` is
`await_resume`.

The fields `starts`, `outcome` and `destroys` of a frame, `awaiter` to `resumes` of an awaitable,
and `deliveries` are records of the run.  `failed` says that an assertion has failed, or that a null
handle, a destroyed frame or a coroutine that is not suspended has been used.
-/

namespace Concurrencpp

open Function (update)

/-! ### Frames and objects -/

/-- What the methods of `lazy_result` throw. -/
inductive LazyError
  | emptyResult (message : String)
  deriving DecidableEq, Repr

def kEmptyLazyResultStatusErrMsg : String :=
  "concurrencpp::lazy_result::status - result is empty."

def kEmptyLazyResultOperatorCoAwaitErrMsg : String :=
  "concurrencpp::lazy_result::operator co_await - result is empty."

def kEmptyLazyResultResolveErrMsg : String :=
  "concurrencpp::lazy_result::resolve - result is empty."

def kEmptyLazyResultRunErrMsg : String :=
  "concurrencpp::lazy_result::run - result is empty."

/-- The objects with an `m_state`: `lazy_result` objects and awaitables. -/
inductive LazyObject
  | result (i : ℕ)
  | awaitable (a : ℕ)
  deriving DecidableEq, Repr

/-- Where the body of a lazy task is. -/
inductive BodyPoint
  | initial
  | running
  | suspended
  | finished
  deriving DecidableEq, Repr

/-- A coroutine frame with its `lazy_result_state`. -/
structure LazyFrame (α ε : Type) where
  point : BodyPoint
  callerHandle : Option ℕ
  producer : ProducerContext α ε
  /-- How often an awaitable has jumped into the body. -/
  starts : ℕ
  /-- What the body has ended with. -/
  outcome : Option (ProducerContext α ε)
  destroys : ℕ
  deriving DecidableEq, Repr

/-- `lazy_awaitable` and `lazy_resolve_awaitable`. -/
inductive AwaitableKind
  | await
  | resolve
  deriving DecidableEq, Repr

/-- The kind of an awaitable, and the record of its use. -/
structure AwaitRecord where
  kind : AwaitableKind
  /-- The coroutine that is in a `co_await` of it. -/
  awaiter : Option ℕ
  awaits : ℕ
  /-- How often a coroutine has suspended in it. -/
  suspends : ℕ
  /-- How often a coroutine suspended in it has been resumed. -/
  resumes : ℕ
  deriving DecidableEq, Repr

/-- Where an awaiting coroutine is: in code of its own, suspended, or before `await_resume`. -/
inductive CallerPc
  | running
  | suspended (a : ℕ)
  | resuming (a : ℕ)
  deriving DecidableEq, Repr

/-- A `co_await` of a `lazy_awaitable` has given the outcome to its caller. -/
structure LazyDelivery (α ε : Type) where
  frame : ℕ
  caller : ℕ
  outcome : ProducerContext α ε
  deriving DecidableEq, Repr

/-- All frames, by their address, the objects with an `m_state`, the awaitables and the coroutines
that await them. -/
structure LazyResults (α ε : Type) where
  frames : ℕ → Option (LazyFrame α ε)
  alive : LazyObject → Bool
  mState : LazyObject → Option ℕ
  awaits : ℕ → AwaitRecord
  callers : ℕ → CallerPc
  deliveries : List (LazyDelivery α ε)
  failed : Bool

/-- What the body of a lazy task does by itself, or what resumes it where it has suspended. -/
inductive BodyEvent (α ε : Type)
  | suspend
  | resume
  | returnValue (object : α)
  | throwException (error : ε)
  deriving DecidableEq, Repr

/-- An operation on an object, a part of a `co_await`, or something that a body does. -/
inductive LazyMove (α ε : Type)
  | create (i f : ℕ)
  | construct (i : ℕ)
  | moveConstruct (i rhs : ℕ)
  | moveAssign (i rhs : ℕ)
  | destroyResult (i : ℕ)
  | status (i : ℕ)
  | operatorCoAwait (i a : ℕ)
  | resolve (i a : ℕ)
  | await (c a : ℕ)
  | awaitResume (c : ℕ)
  | resolveResume (c i : ℕ)
  | destroyAwaitable (a : ℕ)
  | run (i self : ℕ)
  | body (f : ℕ) (event : BodyEvent α ε)
  deriving DecidableEq, Repr

/-- A frame as the call of the coroutine leaves it. -/
def LazyFrame.initial {α ε : Type} : LazyFrame α ε where
  point := .initial
  callerHandle := none
  producer := .idle
  starts := 0
  outcome := none
  destroys := 0

/-- What `std::move` of the stored object leaves of it; `moved` is the type's own. -/
def ProducerContext.movedOut {α ε : Type} (moved : α → α) :
    ProducerContext α ε → ProducerContext α ε
  | .value object => .value (moved object)
  | producer => producer

namespace LazyResults

variable {α ε : Type}

def initial : LazyResults α ε where
  frames := fun _ => none
  alive := fun _ => false
  mState := fun _ => none
  awaits := fun _ => ⟨.await, none, 0, 0, 0⟩
  callers := fun _ => .running
  deliveries := []
  failed := false

/-! ### Handles -/

def check (s : LazyResults α ε) (b : Bool) : LazyResults α ε := { s with failed := s.failed || !b }

def setFrame (s : LazyResults α ε) (f : ℕ) (frame : LazyFrame α ε) : LazyResults α ε :=
  { s with frames := update s.frames f (some frame) }

def setCaller (s : LazyResults α ε) (c : ℕ) (pc : CallerPc) : LazyResults α ε :=
  { s with callers := update s.callers c pc }

def setAwait (s : LazyResults α ε) (a : ℕ) (record : AwaitRecord) : LazyResults α ε :=
  { s with awaits := update s.awaits a record }

/-- The lifetime of an object begins, with a null handle. -/
def begin (s : LazyResults α ε) (o : LazyObject) : LazyResults α ε :=
  { s with alive := update s.alive o true }

/-- The lifetime of an object ends. -/
def release (s : LazyResults α ε) (o : LazyObject) : LazyResults α ε :=
  { s with
    alive := update s.alive o false
    mState := update s.mState o none }

/-- `m_state(std::exchange(rhs.m_state, {}))`. -/
def exchange (s : LazyResults α ε) (o rhs : LazyObject) : LazyResults α ε :=
  { s with mState := update (update s.mState o (s.mState rhs)) rhs none }

/-- `coroutine_handle::destroy`. -/
def destroy (s : LazyResults α ε) (f : ℕ) : LazyResults α ε :=
  match s.frames f with
  | none => s.check false
  | some frame =>
      (s.setFrame f { frame with destroys := frame.destroys + 1 }).check
        (frame.destroys = 0 ∧ frame.point ≠ .running)

/-- `if (static_cast<bool>(m_state)) m_state.destroy()`. -/
def destroyState (s : LazyResults α ε) (o : LazyObject) : LazyResults α ε :=
  match s.mState o with
  | none => s
  | some f => s.destroy f

/-- `throw_if_empty`: the handle, if there is one. -/
def throwIfEmpty (s : LazyResults α ε) (o : LazyObject) (message : String) : Except LazyError ℕ :=
  match s.mState o with
  | none => .error (.emptyResult message)
  | some f => .ok f

/-! ### The objects of the program -/

/-- A call of a lazy coroutine: the frame suspends at once, and `get_return_object` gives its handle
to a `lazy_result`. -/
def create (s : LazyResults α ε) (o : LazyObject) (f : ℕ) : Option (LazyResults α ε) :=
  if s.alive o = false ∧ s.frames f = none then
    some { (s.begin o).setFrame f .initial with mState := update s.mState o (some f) }
  else none

def moveConstruct (s : LazyResults α ε) (o rhs : LazyObject) : Option (LazyResults α ε) :=
  if s.alive o = false ∧ s.alive rhs = true then some ((s.begin o).exchange o rhs) else none

def moveAssign (s : LazyResults α ε) (o rhs : LazyObject) : Option (LazyResults α ε) :=
  if s.alive o = true ∧ s.alive rhs = true then
    if rhs = o then some s else some ((s.destroyState o).exchange o rhs)
  else none

/-- `~lazy_result`. -/
def destroyResult (s : LazyResults α ε) (o : LazyObject) : Option (LazyResults α ε) :=
  if s.alive o = true then some ((s.destroyState o).release o) else none

/-- A use of the promise of the frame `f`. -/
def use (s : LazyResults α ε) (f : ℕ) : LazyResults α ε :=
  match s.frames f with
  | none => s.check false
  | some frame => s.check (frame.destroys = 0)

/-- `status`: what it returns, and the state behind it. -/
def status (s : LazyResults α ε) (o : LazyObject) :
    Except LazyError (Option ResultStatus × LazyResults α ε) :=
  (s.throwIfEmpty o kEmptyLazyResultStatusErrMsg).map fun f =>
    ((s.frames f).map fun frame => frame.producer.status, s.use f)

/-- A call of `status`; when it throws, nothing has changed. -/
def statusStep (s : LazyResults α ε) (o : LazyObject) : Option (LazyResults α ε) :=
  if s.alive o = true then
    match s.status o with
    | .error _ => some s
    | .ok p => some p.2
  else none

/-- `operator co_await` and `resolve`: an awaitable takes the handle over.  On an empty object they
throw, and nothing has changed. -/
def makeAwaitable (s : LazyResults α ε) (kind : AwaitableKind) (message : String) (o : LazyObject)
    (a : ℕ) : Option (LazyResults α ε) :=
  if s.alive o = true ∧ s.alive (.awaitable a) = false then
    match s.throwIfEmpty o message with
    | .error _ => some s
    | .ok _ =>
        some (((s.begin (.awaitable a)).exchange (.awaitable a) o).setAwait a ⟨kind, none, 0, 0, 0⟩)
  else none

def operatorCoAwait (s : LazyResults α ε) (o : LazyObject) (a : ℕ) :
    Option (LazyResults α ε) :=
  s.makeAwaitable .await kEmptyLazyResultOperatorCoAwaitErrMsg o a

def resolve (s : LazyResults α ε) (o : LazyObject) (a : ℕ) : Option (LazyResults α ε) :=
  s.makeAwaitable .resolve kEmptyLazyResultResolveErrMsg o a

/-- The destructors of the awaitables; `lazy_awaitable` does not look whether its handle is null. -/
def destroyAwaitable (s : LazyResults α ε) (a : ℕ) : Option (LazyResults α ε) :=
  if s.alive (.awaitable a) = true then
    match (s.awaits a).kind, s.mState (.awaitable a) with
    | .await, none => some ((s.check false).release (.awaitable a))
    | _, _ => some ((s.destroyState (.awaitable a)).release (.awaitable a))
  else none

/-! ### Awaiting -/

/-- `await_suspend`: `lazy_result_state_base::await`, and the jump into the frame it returns. -/
def awaitSuspend (s : LazyResults α ε) (c a f : ℕ)
    (frame : LazyFrame α ε) : LazyResults α ε :=
  (((s.setCaller c (.suspended a)).setAwait a { s.awaits a with
      suspends := (s.awaits a).suspends + 1 }).setFrame f { frame with
      callerHandle := some c
      point := .running
      starts := frame.starts + 1 }).check (frame.point = .initial ∨ frame.point = .suspended)

/-- A `co_await` of `a` by `c` begins. -/
def enter (s : LazyResults α ε) (c a : ℕ) : LazyResults α ε :=
  s.setAwait a { s.awaits a with awaiter := some c, awaits := (s.awaits a).awaits + 1 }

/-- The end of a `co_await` of `a` by `c`. -/
def leave (s : LazyResults α ε) (c a : ℕ) : LazyResults α ε :=
  (s.setCaller c .running).setAwait a { s.awaits a with awaiter := none }

/-- `co_await` up to the suspension: `await_ready`, and `await_suspend` when the body is not
done. -/
def await (s : LazyResults α ε) (c a : ℕ) : Option (LazyResults α ε) :=
  if s.callers c = .running ∧ s.alive (.awaitable a) = true then
    match s.mState (.awaitable a) with
    | none => some ((s.enter c a).check false)
    | some f =>
        match s.frames f with
        | none => some ((s.enter c a).check false)
        | some frame =>
            if frame.point = .finished then some (((s.use f).enter c a).setCaller c (.resuming a))
            else some (((s.use f).enter c a).awaitSuspend c a f frame)
  else none

/-- `lazy_result_state::get`: the value is moved out, or the exception is thrown. -/
def get (moved : α → α) (s : LazyResults α ε) (f : ℕ) : ProducerContext α ε × LazyResults α ε :=
  match s.frames f with
  | none => (.idle, s.check false)
  | some frame =>
      (frame.producer,
        ((s.use f).setFrame f { frame with producer := frame.producer.movedOut moved }).check
        (frame.producer.status ≠ .idle))

/-- `lazy_awaitable::await_resume`, with the outcome it gives. -/
def awaitResume (moved : α → α) (s : LazyResults α ε) (c : ℕ) :
    Option (ProducerContext α ε × LazyResults α ε) :=
  match s.callers c with
  | .resuming a =>
      if (s.awaits a).kind = .await then
        match s.mState (.awaitable a) with
        | none => some (.idle, (s.leave c a).check false)
        | some f =>
            let r := (s.leave c a).get moved f
            some (r.1, { r.2 with deliveries := s.deliveries ++ [⟨f, c, r.1⟩] })
      else none
  | _ => none

/-- `lazy_resolve_awaitable::await_resume`, which gives the handle to the `lazy_result` `o`. -/
def resolveResume (s : LazyResults α ε) (c : ℕ) (o : LazyObject) : Option (LazyResults α ε) :=
  match s.callers c with
  | .resuming a =>
      if (s.awaits a).kind = .resolve ∧ s.alive o = false then
        some (((s.leave c a).begin o).exchange o (.awaitable a))
      else none
  | _ => none

/-! ### Bodies -/

/-- `lazy_final_awaiter`: the jump to the coroutine behind `m_caller_handle`. -/
def resumeCaller (s : LazyResults α ε) : Option ℕ → LazyResults α ε
  | none => s.check false
  | some c =>
      match s.callers c with
      | .suspended a =>
          (s.setCaller c (.resuming a)).setAwait a
            { s.awaits a with resumes := (s.awaits a).resumes + 1 }
      | _ => s.check false

/-- The body ends: `build_result` or `build_exception`, and the final suspension. -/
def finish (s : LazyResults α ε) (f : ℕ) (frame : LazyFrame α ε) (producer : ProducerContext α ε) :
    LazyResults α ε :=
  ((s.setFrame f { frame with
      point := .finished
      producer := producer
      outcome := some producer }).check (frame.producer.status = .idle)).resumeCaller
        frame.callerHandle

def bodyStep (s : LazyResults α ε) (f : ℕ) (event : BodyEvent α ε) : Option (LazyResults α ε) :=
  match s.frames f with
  | none => none
  | some frame =>
      if frame.destroys = 0 then
        match event, frame.point with
        | .suspend, .running => some (s.setFrame f { frame with point := .suspended })
        | .resume, .suspended => some (s.setFrame f { frame with point := .running })
        | .returnValue object, .running => some (s.finish f frame (.value object))
        | .throwException error, .running => some (s.finish f frame (.exception error))
        | _, _ => none
      else none

/-- `run` up to the first statement of `run_impl`, which moves from `*this` to its local `self`. -/
def run (s : LazyResults α ε) (o self : LazyObject) : Option (LazyResults α ε) :=
  if s.alive o = true then
    match s.throwIfEmpty o kEmptyLazyResultRunErrMsg with
    | .error _ => some s
    | .ok _ => s.moveConstruct self o
  else none

/-- One step of the program; `moved` is what a move leaves of the value that is returned. -/
def step (moved : α → α) (s : LazyResults α ε) : LazyMove α ε → Option (LazyResults α ε)
  | .create i f => s.create (.result i) f
  | .construct i => if s.alive (.result i) = false then some (s.begin (.result i)) else none
  | .moveConstruct i rhs => s.moveConstruct (.result i) (.result rhs)
  | .moveAssign i rhs => s.moveAssign (.result i) (.result rhs)
  | .destroyResult i => s.destroyResult (.result i)
  | .status i => s.statusStep (.result i)
  | .operatorCoAwait i a => s.operatorCoAwait (.result i) a
  | .resolve i a => s.resolve (.result i) a
  | .await c a => s.await c a
  | .awaitResume c => (s.awaitResume moved c).map Prod.snd
  | .resolveResume c i => s.resolveResume c (.result i)
  | .destroyAwaitable a => s.destroyAwaitable a
  | .run i self => s.run (.result i) (.result self)
  | .body f event => s.bodyStep f event

/-- `run` on the object `i` and `co_return co_await self`, by the coroutine `c`: the operations, in
their order, between which other coroutines and the body go on. -/
def runImpl (i self a c : ℕ) : List (LazyMove α ε) :=
  [.run i self, .operatorCoAwait self a, .await c a, .awaitResume c, .destroyAwaitable a,
    .destroyResult self]

def IsInitial (s : LazyResults α ε) : Prop := s = initial

/-- No awaitable is destroyed during a `co_await` of it, while its body runs or is suspended. -/
def KeepsConsumers (s : LazyResults α ε) : LazyMove α ε → Prop
  | .destroyAwaitable a => (s.awaits a).awaiter = none
  | _ => True

instance (s : LazyResults α ε) (m : LazyMove α ε) : Decidable (s.KeepsConsumers m) := by
  cases m <;> unfold KeepsConsumers <;> infer_instance

/-- The awaitable of a `co_await` has not been awaited before. -/
def FirstAwait (s : LazyResults α ε) : LazyMove α ε → Prop
  | .await _ a => (s.awaits a).awaits = 0
  | _ => True

instance (s : LazyResults α ε) (m : LazyMove α ε) : Decidable (s.FirstAwait m) := by
  cases m <;> unfold FirstAwait <;> infer_instance

/-- No awaitable is destroyed during a `co_await` of it, and none is awaited twice. -/
def Admissible (s : LazyResults α ε) (m : LazyMove α ε) : Prop :=
  s.KeepsConsumers m ∧ s.FirstAwait m

instance (s : LazyResults α ε) (m : LazyMove α ε) : Decidable (s.Admissible m) :=
  inferInstanceAs (Decidable (_ ∧ _))

end LazyResults
end Concurrencpp
