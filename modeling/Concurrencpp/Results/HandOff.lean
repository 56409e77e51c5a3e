import Concurrencpp.Interleaving
import Concurrencpp.Results.AwaitViaFunctor

/-!
# Coroutines that are handed to an executor

`resume_on`, the initial scheduling of a coroutine and the accumulator of `bulk_submit` make an
`await_via_functor` and give it away: it is moved into a `task`, and with the task into lambdas,
queues and threads.  The objects that live at a time are numbered.

* `Callable` is the value of such an object: a functor, a `task` (empty, or with a callable in its
  buffer or on the heap), or a closure that has captured one.
* `Callable.move`, `destroy` and `call` are the move constructor, the destructor and `operator()`,
  by the functions of `task.cpp` and `await_via_functor`.
* An executor is whatever sequence of steps: it moves tasks through its queues, invokes them, clears
  or destroys them, on any thread and in any order.  An exception destroys the objects that it
  leaves.
* A coroutine that is resumed inside a step goes on with further steps.

The functors of delay objects live in `timer_state`s; these are in the model of the timer queue.
-/

namespace Concurrencpp

open Function (update)

/-- Where a `task` stores its callable. -/
inductive Storage
  | inlined
  | allocated
  deriving DecidableEq, Repr

inductive Callable
  | functor (f : AwaitViaFunctor)
  | emptyTask
  | task (storage : Storage) (c : Callable)
  | closure (c : Callable)
  deriving DecidableEq

namespace Callable

/-- The destructor. -/
def destroy : Callable → Suspensions → Suspensions
  | .functor f, w => f.destroy w
  | .emptyTask, w => w
  | .task _ c, w => c.destroy w
  | .closure c, w => c.destroy w

/-- The move constructor: the new object, what is left behind, and the suspensions.  `task::build`
moves a callable in the buffer and destroys what is left of it, and takes over the pointer of
another one. -/
def move : Callable → Suspensions → Callable × Callable × Suspensions
  | .functor f, w => (.functor f, .functor .moved, w)
  | .emptyTask, w => (.emptyTask, .emptyTask, w)
  | .task .inlined c, w =>
      let p := c.move w
      (.task .inlined p.1, .emptyTask, p.2.1.destroy p.2.2)
  | .task .allocated c, w => (.task .allocated c, .emptyTask, w)
  | .closure c, w =>
      let p := c.move w
      (.closure p.1, .closure p.2.1, p.2.2)

/-- `operator()`; `none` when the assertion of the functor fails.  `task` destroys its callable
then. -/
def call : Callable → Suspensions → Option (Callable × Suspensions)
  | .functor f, w => (f.call w).map fun p => (.functor p.1, p.2)
  | .emptyTask, w => some (.emptyTask, w)
  | .task _ c, w => (c.call w).map fun p => (.emptyTask, p.1.destroy p.2)
  | .closure c, w => (c.call w).map fun p => (.closure p.1, p.2)

def isTask : Callable → Bool
  | .emptyTask | .task _ _ => true
  | _ => false

def isClosure : Callable → Bool
  | .closure _ => true
  | _ => false

/-- The object is not a functor that has been moved from, nor has it captured one. -/
def usable : Callable → Bool
  | .functor f => f.interrupted.isSome
  | .closure c => c.usable
  | _ => true

end Callable

/-- The objects, the suspensions so far, and what has become of them. -/
structure HandOff where
  objects : ℕ → Option Callable
  suspended : ℕ
  coroutines : Suspensions
  assertFailed : Bool

/-- A coroutine suspends and makes a functor; a task or a closure is made from an object; an object
is moved to a new one, or one task to another; a task is invoked or cleared; a thread runs its
closure; an object is destroyed. -/
inductive HandOffMove
  | suspend (o : ℕ)
  | construct (o o' : ℕ) (storage : Storage)
  | capture (o o' : ℕ)
  | move (o o' : ℕ)
  | assign (o o' : ℕ)
  | invoke (o : ℕ)
  | clear (o : ℕ)
  | runThread (o : ℕ)
  | destroy (o : ℕ)
  deriving DecidableEq, Repr

namespace HandOff

def initial : HandOff where
  objects := fun _ => none
  suspended := 0
  coroutines := .initial
  assertFailed := false

/-- A new object `o'` is made from what is moved out of `o`. -/
def build (s : HandOff) (o o' : ℕ) (f : Callable → Callable) : Option HandOff :=
  match s.objects o, s.objects o' with
  | some c, none =>
      let p := c.move s.coroutines
      some { s with
        objects := update (update s.objects o (some p.2.1)) o' (some (f p.1))
        coroutines := p.2.2 }
  | _, _ => none

/-- `task::clear`. -/
def clear (s : HandOff) (o : ℕ) : Option HandOff :=
  match s.objects o with
  | some c =>
      if c.isTask then
        some { s with
          objects := update s.objects o (some .emptyTask)
          coroutines := c.destroy s.coroutines }
      else none
  | none => none

/-- The second part of `task::operator=`: `build(std::move(rhs))` on a task that has been
cleared. -/
def rebuild (s : HandOff) (o o' : ℕ) : Option HandOff :=
  match s.objects o' with
  | some c =>
      if c.isTask then
        let p := c.move s.coroutines
        some { s with
          objects := update (update s.objects o' (some p.2.1)) o (some p.1)
          coroutines := p.2.2 }
      else none
  | none => none

/-- An object of the given kind is called; a failed assertion is recorded. -/
def invoke (s : HandOff) (o : ℕ) (kind : Callable → Bool) : Option HandOff :=
  match s.objects o with
  | some c =>
      if kind c then
        match c.call s.coroutines with
        | some p => some { s with objects := update s.objects o (some p.1), coroutines := p.2 }
        | none => some { s with assertFailed := true }
      else none
  | none => none

/-- The object is destroyed. -/
def destroy (s : HandOff) (o : ℕ) : Option HandOff :=
  match s.objects o with
  | some c =>
      some { s with objects := update s.objects o none, coroutines := c.destroy s.coroutines }
  | none => none

def step (s : HandOff) : HandOffMove → Option HandOff
  | .suspend o =>
      match s.objects o with
      | none =>
          some { s with
            objects := update s.objects o (some (.functor (.make s.suspended)))
            suspended := s.suspended + 1 }
      | some _ => none
  | .construct o o' storage =>
      if (s.objects o).any Callable.usable then s.build o o' (.task storage) else none
  | .capture o o' =>
      if (s.objects o).any Callable.usable then s.build o o' .closure else none
  | .move o o' => s.build o o' id
  | .assign o o' => if o = o' then some s else (s.clear o).bind fun s => s.rebuild o o'
  | .invoke o => s.invoke o Callable.isTask
  | .clear o => s.clear o
  | .runThread o =>
      if (s.objects o).any Callable.usable then
        -- the closure is destroyed when the thread has run it
        (s.invoke o Callable.isClosure).bind fun s => s.destroy o
      else none
  | .destroy o => s.destroy o

def IsInitial (s : HandOff) : Prop := s = initial

def Reachable (s : HandOff) : Prop := Interleaving.Reachable step IsInitial s

end HandOff
end Concurrencpp
