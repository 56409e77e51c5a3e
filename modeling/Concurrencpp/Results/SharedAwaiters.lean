import Concurrencpp.Interleaving
import Concurrencpp.LinkedChain

/-!
# The awaiters of a shared result

`m_awaiters` of `shared_result_state_base`: a stack of `shared_await_context`s, linked through the
contexts themselves, which `await` pushes to and `on_result_finished` detaches, reverses in place
and walks.  The program has one `on_result_finished` and any number of awaitables
(`shared_awaitable` and `shared_resolve_awaitable`), each of which is awaited once; a coroutine that
awaits the same shared result again does so through another awaitable.

* Every atomic operation on `m_awaiters` is one step; a weak compare-exchange may fail without
  cause.  The contexts are read and written by one party at a time.
* The context of an awaitable lies in the frame of its coroutine.  It is there from the construction
  of the awaitable to its destruction, which follows `await_resume`; then its address may be taken
  by another one.  An access to an address without a context, an invocation of a null handle or of a
  coroutine that is not suspended sets `fault`.
* A coroutine that has been resumed goes on at once, as a party of its own, while
  `on_result_finished` goes on with its loop.

`pushed`, `resumed` and `declined` are records of the run: the awaitables whose compare-exchange has
succeeded, those that `on_result_finished` has resumed, and those whose `await` has returned
`false`, each in the order in which it happened.
-/

namespace Concurrencpp

/-- `m_awaiters`: the ready constant, or a pointer to a context. -/
inductive AwaitersPtr
  | ready
  | list (first : Option ℕ)
  deriving DecidableEq, Repr

/-- `shared_await_context`; a coroutine is known by its awaitable. -/
structure SharedAwaitContext where
  next : Option ℕ
  callerHandle : Option ℕ
  deriving DecidableEq, Repr

/-- Where an awaitable is: not constructed, at the load, the store and the compare-exchange of
`await` (with `awaiter_before`), suspended, about to run `await_resume`, or destroyed. -/
inductive AwaitablePc
  | unborn
  | load
  | setNext (before : Option ℕ)
  | cas (before : Option ℕ)
  | suspended
  | returned
  | destroyed
  deriving DecidableEq, Repr

/-- Where `on_result_finished` is; `notify` and `release` do not touch the awaiters. -/
inductive FinishPc
  | before
  | notify
  | release
  | exchange
  | reverse (current prev : Option ℕ)
  | resume (awaiters : Option ℕ)
  | call (callerHandle awaiters : Option ℕ)
  | done
  deriving DecidableEq, Repr

/-- The awaiters, their contexts in memory, and the parties. -/
structure SharedAwaiters where
  awaiters : AwaitersPtr
  contexts : ℕ → Option SharedAwaitContext
  address : ℕ → ℕ
  awaitables : ℕ → AwaitablePc
  finish : FinishPc
  fault : Bool
  pushed : List ℕ
  resumed : List ℕ
  declined : List ℕ

/-- An awaitable is constructed at an address and `await_suspend` is called; its next step; its weak
compare-exchange fails without cause; `on_result_finished` is called; its next step. -/
inductive AwaiterMove
  | create (n a : ℕ)
  | awaitable (n : ℕ)
  | spurious (n : ℕ)
  | start
  | finish
  deriving DecidableEq, Repr

namespace SharedAwaiters

/-- No awaitables yet. -/
def initial : SharedAwaiters where
  awaiters := .list none
  contexts := fun _ => none
  address := fun _ => 0
  awaitables := fun _ => .unborn
  finish := .before
  fault := false
  pushed := []
  resumed := []
  declined := []

def setPc (s : SharedAwaiters) (n : ℕ) (pc : AwaitablePc) : SharedAwaiters :=
  { s with awaitables := Function.update s.awaitables n pc }

def setContext (s : SharedAwaiters) (a : ℕ) (c : Option SharedAwaitContext) : SharedAwaiters :=
  { s with contexts := Function.update s.contexts a c }

/-- An access that the program must not make. -/
def crash (s : SharedAwaiters) : SharedAwaiters := { s with fault := true, finish := .done }

/-- The construction of an awaitable, with `caller_handle` as `await_suspend` stores it. -/
def create (s : SharedAwaiters) (n a : ℕ) : Option SharedAwaiters :=
  if s.awaitables n = .unborn ∧ s.contexts a = none then
    some { (s.setPc n .load).setContext a (some ⟨none, some n⟩) with
      address := Function.update s.address n a }
  else none

/-- `await`, then the destruction of the awaitable. -/
def awaitableStep (s : SharedAwaiters) (n : ℕ) : Option SharedAwaiters :=
  match s.awaitables n with
  | .unborn | .suspended | .destroyed => none
  | .load =>
      match s.awaiters with
      | .ready => some { s.setPc n .returned with declined := s.declined ++ [n] }
      | .list first => some (s.setPc n (.setNext first))
  | .setNext before =>
      match s.contexts (s.address n) with
      | some c => some ((s.setPc n (.cas before)).setContext (s.address n)
          (some { c with next := before }))
      | none => some s.crash
  | .cas before =>
      if s.awaiters = .list before then
        some { s.setPc n .suspended with
          awaiters := .list (some (s.address n))
          pushed := s.pushed ++ [n] }
      else some (s.setPc n .load)
  | .returned => some ((s.setPc n .destroyed).setContext (s.address n) none)

/-- `compare_exchange_weak` fails although the values are equal. -/
def spurious (s : SharedAwaiters) (n : ℕ) : Option SharedAwaiters :=
  match s.awaitables n with
  | .cas _ => some (s.setPc n .load)
  | _ => none

/-- `on_result_finished`, behind the store to `m_status`. -/
def finishStep (s : SharedAwaiters) : Option SharedAwaiters :=
  match s.finish with
  | .before | .done => none
  | .notify => some { s with finish := .release }
  | .release => some { s with finish := .exchange }
  | .exchange =>
      match s.awaiters with
      | .list first => some { s with awaiters := .ready, finish := .reverse first none }
      | .ready => some s.crash
  | .reverse none prev => some { s with finish := .resume prev }
  | .reverse (some a) prev =>
      match s.contexts a with
      | some c => some { s.setContext a (some { c with next := prev }) with
          finish := .reverse c.next (some a) }
      | none => some s.crash
  | .resume none => some { s with finish := .done }
  -- the handle and the next context are read before the handle is invoked
  | .resume (some a) =>
      match s.contexts a with
      | some c => some { s with finish := .call c.callerHandle c.next }
      | none => some s.crash
  | .call none _ => some s.crash
  | .call (some n) awaiters =>
      if s.awaitables n = .suspended then
        some { s.setPc n .returned with resumed := s.resumed ++ [n], finish := .resume awaiters }
      else some s.crash

/-- One step. -/
def step (s : SharedAwaiters) : AwaiterMove → Option SharedAwaiters
  | .create n a => s.create n a
  | .awaitable n => s.awaitableStep n
  | .spurious n => s.spurious n
  | .start => if s.finish = .before then some { s with finish := .notify } else none
  | .finish => s.finishStep

def IsInitial (s : SharedAwaiters) : Prop := s = initial

/-- The states that some interleaving reaches. -/
def Reachable : SharedAwaiters → Prop := Interleaving.Reachable step IsInitial

end SharedAwaiters
end Concurrencpp
