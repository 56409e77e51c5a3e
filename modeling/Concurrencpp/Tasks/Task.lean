import Concurrencpp.Interleaving

/-!
# Tasks

`task`: a callable of any type behind one interface.  The object has a buffer and a pointer to the
`vtable` of the type that it contains; the callable lies in the buffer or on the heap, and null
pointers in the `vtable` stand for operations that need no call.

* `CallableType`: what `callable_vtable` reads off a type.  The address of a `vtable` identifies the
  type, and `task` asks for two types by it.
* `CallableVtable`: the functions of `callable_vtable`, over the two kinds of storage.
* `TaskObject.build`, `call`, `clear`: the functions of `task`.
* `TaskObjects`: any number of `task` objects and the operations on them.

A function returns `none` where the source would read a buffer as something that it does not hold,
follow a null or dangling pointer, or invoke a callable that has been moved away.  `TaskEvent`s are
what can be seen from outside: invocations, and runs of a destructor that is not trivial.
-/

namespace Concurrencpp

/-! ### Callable types -/

structure CallableTraits where
  size : ℕ
  nothrowMoveConstructible : Bool
  triviallyCopyConstructible : Bool
  triviallyDestructible : Bool
  deriving DecidableEq, Repr

/-- The type of a callable.  `coroutine_handle_functor` has one pointer, `await_via_functor` two,
and both have a move constructor and a destructor of their own. -/
inductive CallableType
  | coroutineHandleFunctor
  | awaitViaFunctor
  | user (traits : CallableTraits)
  deriving DecidableEq, Repr

/-- `task_constants::buffer_size`. -/
def bufferSize : ℕ := 64 - 8

namespace CallableType

def traits : CallableType → CallableTraits
  | .coroutineHandleFunctor => ⟨8, true, false, false⟩
  | .awaitViaFunctor => ⟨16, true, false, false⟩
  | .user traits => traits

/-- `is_inlinable`. -/
def isInlinable (ty : CallableType) : Bool :=
  ty.traits.nothrowMoveConstructible && decide (ty.traits.size ≤ bufferSize)

/-- `make_vtable` gives the type a `move_destroy_fn`. -/
def hasMoveDestroyFn (ty : CallableType) : Bool :=
  !(ty.traits.triviallyCopyConstructible && ty.traits.triviallyDestructible && ty.isInlinable)

/-- `make_vtable` gives the type a `destroy_fn`. -/
def hasDestroyFn (ty : CallableType) : Bool := !(ty.traits.triviallyDestructible && ty.isInlinable)

end CallableType

/-! ### Memory -/

/-- A callable object.  The callable is known by a number; `moved` is what a move leaves behind. -/
inductive CallableObject
  | live (callable : ℕ)
  | moved
  deriving DecidableEq, Repr

/-- What lies in `m_buffer`. -/
inductive TaskBuffer
  | bytes
  | inlined (object : CallableObject)
  | pointer (address : Option ℕ)
  deriving DecidableEq, Repr

/-- The destructor of a functor also runs behind its call; it finds no coroutine to destroy or to
resume then. -/
inductive TaskEvent
  | invoke (callable : ℕ)
  | destroy (callable : ℕ)
  deriving DecidableEq, Repr

/-- The blocks on the heap, how many have been allocated, and the events so far. -/
structure TaskMemory where
  heap : ℕ → Option CallableObject
  blocks : ℕ
  trace : List TaskEvent

namespace TaskMemory

/-- The destructor of a callable object. -/
def destruct (m : TaskMemory) (ty : CallableType) : CallableObject → TaskMemory
  | .live callable =>
      if ty.traits.triviallyDestructible then m
      else { m with trace := m.trace ++ [.destroy callable] }
  | .moved => m

/-- `operator()` of a callable object. -/
def invoke (m : TaskMemory) : CallableObject → Option TaskMemory
  | .live callable => some { m with trace := m.trace ++ [.invoke callable] }
  | .moved => none

def allocate (m : TaskMemory) (object : CallableObject) : TaskMemory :=
  { m with
    heap := Function.update m.heap m.blocks (some object)
    blocks := m.blocks + 1 }

def free (m : TaskMemory) (address : ℕ) : TaskMemory :=
  { m with heap := Function.update m.heap address none }

end TaskMemory

/-! ### The functions of a type -/

namespace CallableVtable

/-- `build_inlinable` and `build_allocated`. -/
def build (ty : CallableType) (callable : ℕ) (m : TaskMemory) : TaskBuffer × TaskMemory :=
  if ty.isInlinable then (.inlined (.live callable), m)
  else (.pointer (some m.blocks), m.allocate (.live callable))

/-- `move_destroy_inline` and `move_destroy_allocated`: what is in `dst` and in `src` then. -/
def moveDestroy (ty : CallableType) (src : TaskBuffer) (m : TaskMemory) :
    Option (TaskBuffer × TaskBuffer × TaskMemory) :=
  if ty.isInlinable then
    match src with
    | .inlined object => some (.inlined object, .bytes, m.destruct ty .moved)
    | _ => none
  else
    match src with
    | .pointer address => some (.pointer address, .pointer none, m)
    | _ => none

/-- `execute_destroy_inline` and `execute_destroy_allocated`.  An exception out of the callable
skips the rest. -/
def executeDestroy (ty : CallableType) (throws : Bool) (target : TaskBuffer) (m : TaskMemory) :
    Option (TaskBuffer × TaskMemory) :=
  if ty.isInlinable then
    match target with
    | .inlined object => (m.invoke object).map fun m =>
        if throws then (target, m) else (.bytes, m.destruct ty object)
    | _ => none
  else
    match target with
    | .pointer (some address) => (m.heap address).bind fun object => (m.invoke object).map fun m =>
        if throws then (target, m) else (target, (m.destruct ty object).free address)
    | _ => none

/-- `destroy_inline` and `destroy_allocated`. -/
def destroy (ty : CallableType) (target : TaskBuffer) (m : TaskMemory) :
    Option (TaskBuffer × TaskMemory) :=
  if ty.isInlinable then
    match target with
    | .inlined object => some (.bytes, m.destruct ty object)
    | _ => none
  else
    match target with
    | .pointer (some address) =>
        (m.heap address).map fun object => (target, (m.destruct ty object).free address)
    | .pointer none => some (target, m)
    | _ => none

end CallableVtable

/-! ### The functions of `task` -/

/-- A `task` object. -/
structure TaskObject where
  buffer : TaskBuffer
  vtable : Option CallableType
  deriving DecidableEq, Repr

namespace TaskObject

/-- `task()`. -/
def empty : TaskObject where
  buffer := .bytes
  vtable := none

/-- `operator bool`. -/
def test (t : TaskObject) : Bool := t.vtable.isSome

/-- `task(callable)`. -/
def make (ty : CallableType) (callable : ℕ) (m : TaskMemory) : TaskObject × TaskMemory :=
  let r := CallableVtable.build ty callable m
  (⟨r.1, some ty⟩, r.2)

/-- `build(task&&)`, over a buffer in which nothing lives: this object and `rhs` then. -/
def build (buffer : TaskBuffer) (rhs : TaskObject) (m : TaskMemory) :
    Option (TaskObject × TaskObject × TaskMemory) :=
  match rhs.vtable with
  | none => some (⟨buffer, none⟩, rhs, m)
  | some ty =>
      let moved := (CallableVtable.moveDestroy ty rhs.buffer m).map fun r =>
        (⟨r.1, some ty⟩, ⟨r.2.1, none⟩, r.2.2)
      match ty with
      | .coroutineHandleFunctor | .awaitViaFunctor => moved
      -- `memcpy`
      | .user _ =>
          if ty.hasMoveDestroyFn then moved else some (⟨rhs.buffer, some ty⟩, ⟨rhs.buffer, none⟩, m)

/-- `operator()`; each of its three branches comes to the `execute_destroy` of the type. -/
def call (t : TaskObject) (throws : Bool) (m : TaskMemory) : Option (TaskObject × TaskMemory) :=
  match t.vtable with
  | none => some (t, m)
  | some ty => (CallableVtable.executeDestroy ty throws t.buffer m).map fun r => (⟨r.1, none⟩, r.2)

/-- `clear`. -/
def clear (t : TaskObject) (m : TaskMemory) : Option (TaskObject × TaskMemory) :=
  match t.vtable with
  | none => some (t, m)
  | some ty =>
      let destroyed := (CallableVtable.destroy ty t.buffer m).map fun r => (⟨r.1, none⟩, r.2)
      match ty with
      | .coroutineHandleFunctor | .awaitViaFunctor => destroyed
      | .user _ => if ty.hasDestroyFn then destroyed else some (⟨t.buffer, none⟩, m)

end TaskObject

/-! ### Many objects -/

/-- `task()`, `task(callable)`, the move constructor, the move assignment, `clear`, `operator()` and
the destructor.  A call says whether an exception leaves the callable. -/
inductive TaskOp
  | default (o : ℕ)
  | make (o : ℕ) (ty : CallableType)
  | moveConstruct (o rhs : ℕ)
  | moveAssign (o rhs : ℕ)
  | clear (o : ℕ)
  | call (o : ℕ) (throws : Bool)
  | destroy (o : ℕ)
  deriving DecidableEq, Repr

/-- The objects that live at a time, by number; `callables` counts the callables so far. -/
structure TaskObjects where
  tasks : ℕ → Option TaskObject
  memory : TaskMemory
  callables : ℕ

namespace TaskObjects

def initial : TaskObjects where
  tasks := fun _ => none
  memory := ⟨fun _ => none, 0, []⟩
  callables := 0

def set (s : TaskObjects) (o : ℕ) (t : Option TaskObject) : TaskObjects :=
  { s with tasks := Function.update s.tasks o t }

/-- An operation; `none` also for an object that does not live, or that lives already. -/
def step (s : TaskObjects) : TaskOp → Option TaskObjects
  | .default o => if (s.tasks o).isNone then some (s.set o (some .empty)) else none
  | .make o ty =>
      if (s.tasks o).isNone then
        let r := TaskObject.make ty s.callables s.memory
        some { s.set o (some r.1) with
          memory := r.2
          callables := s.callables + 1 }
      else none
  | .moveConstruct o rhs =>
      if (s.tasks o).isNone then
        (s.tasks rhs).bind fun t => (t.build .bytes s.memory).map fun r =>
          { (s.set o (some r.1)).set rhs (some r.2.1) with memory := r.2.2 }
      else none
  | .moveAssign o rhs =>
      (s.tasks o).bind fun t => (s.tasks rhs).bind fun t' =>
        if o = rhs then some s
        else (t.clear s.memory).bind fun c => (t'.build c.1.buffer c.2).map fun r =>
          { (s.set o (some r.1)).set rhs (some r.2.1) with memory := r.2.2 }
  | .clear o => (s.tasks o).bind fun t => (t.clear s.memory).map fun r =>
      { s.set o (some r.1) with memory := r.2 }
  | .call o throws => (s.tasks o).bind fun t => (t.call throws s.memory).map fun r =>
      { s.set o (some r.1) with memory := r.2 }
  | .destroy o => (s.tasks o).bind fun t => (t.clear s.memory).map fun r =>
      { s.set o none with memory := r.2 }

/-- `operator bool` of the object `o`. -/
def test (s : TaskObjects) (o : ℕ) : Option Bool := (s.tasks o).map TaskObject.test

end TaskObjects

end Concurrencpp
