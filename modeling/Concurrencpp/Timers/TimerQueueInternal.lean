import Concurrencpp.Results.AwaitViaFunctor

/-!
# The containers of the timer queue

`timer_queue_internal` belongs to one run of `work_loop`: a multiset of timers ordered by their
deadlines, and a map from a timer to its element of the multiset.  Timers are numbered in the order
in which their `timer_state`s are made.

* An element of `m_timers` is a node with a timer; nodes are numbered in the order of `emplace`, and
  keep their number when they are extracted and inserted again.
* `m_iterator_mapper` is the list of its entries.
* `TimerState` holds what the queue reads and writes of a `timer_state`; time is a number there.
  The containers only compare deadlines, of whatever type they are.
-/

namespace Concurrencpp

/-- `details::timer_request`. -/
inductive TimerRequest
  | add
  | remove
  deriving DecidableEq, Repr

/-- `m_callable` of a timer: a callable of the user, or the functor of a delay object. -/
inductive TimerCallable
  | bound
  | functor (f : AwaitViaFunctor)
  deriving DecidableEq

/-- `details::timer_state`.  Here times and durations are natural numbers of milliseconds, without a
bound; `TimerStateBase` has the signed 64-bit arithmetic of the source. -/
structure TimerState where
  frequency : ℕ
  deadline : ℕ
  cancelled : Bool
  isOneshot : Bool
  callable : TimerCallable
  deriving DecidableEq

namespace TimerState

/-- The constructor, at the time `now`. -/
def make (now dueTime frequency : ℕ) (isOneshot : Bool) (callable : TimerCallable) :
    TimerState where
  frequency := frequency
  deadline := now + dueTime
  cancelled := false
  isOneshot := isOneshot
  callable := callable

def expired (x : TimerState) (now : ℕ) : Bool := x.deadline ≤ now

/-- The first statements of `fire`: the next deadline. -/
def rearm (x : TimerState) (now : ℕ) : TimerState := { x with deadline := now + x.frequency }

def cancel (x : TimerState) : TimerState := { x with cancelled := true }

def setNewFrequency (x : TimerState) (frequency : ℕ) : TimerState :=
  { x with frequency := frequency }

end TimerState

/-- `timer_queue_internal`. -/
structure TimerQueueInternal where
  timers : List (ℕ × ℕ)
  iteratorMapper : List (ℕ × ℕ)
  nodes : ℕ
  deriving DecidableEq, Repr

namespace TimerQueueInternal

def init : TimerQueueInternal := ⟨[], [], 0⟩

def empty (q : TimerQueueInternal) : Bool := q.timers.isEmpty

/-- `std::multiset::insert`: behind the elements with the same deadline. -/
def insert {τ : Type*} [LT τ] [DecidableLT τ] (deadline : ℕ → τ) (node : ℕ × ℕ)
    (timers : List (ℕ × ℕ)) : List (ℕ × ℕ) :=
  timers.orderedInsert (fun a b => deadline a.2 < deadline b.2) node

def addTimerInternal {τ : Type*} [LT τ] [DecidableLT τ] (q : TimerQueueInternal) (deadline : ℕ → τ)
    (x : ℕ) : TimerQueueInternal where
  timers := insert deadline (q.nodes, x) q.timers
  iteratorMapper := (x, q.nodes) :: q.iteratorMapper
  nodes := q.nodes + 1

/-- `m_iterator_mapper.find`. -/
def find (q : TimerQueueInternal) (x : ℕ) : Option ℕ := q.iteratorMapper.lookup x

/-- `m_timers.erase`. -/
def eraseNode (q : TimerQueueInternal) (node : ℕ) : TimerQueueInternal :=
  { q with timers := q.timers.filter fun e => e.1 ≠ node }

/-- `m_iterator_mapper.erase`. -/
def unmap (q : TimerQueueInternal) (x : ℕ) : TimerQueueInternal :=
  { q with iteratorMapper := q.iteratorMapper.filter fun e => e.1 ≠ x }

/-- `m_timers.extract(m_timers.begin())`. -/
def extract (q : TimerQueueInternal) : TimerQueueInternal := { q with timers := q.timers.tail }

/-- A regular timer goes back into the multiset, and its entry of the map is updated. -/
def reinsert {τ : Type*} [LT τ] [DecidableLT τ] (q : TimerQueueInternal) (deadline : ℕ → τ)
    (node x : ℕ) : TimerQueueInternal :=
  { q.unmap x with
    timers := insert deadline (node, x) q.timers
    iteratorMapper := (x, node) :: (q.unmap x).iteratorMapper }

/-- What `process_timers` returns, for a pass at the time `now`. -/
def nextDeadline (q : TimerQueueInternal) (deadline : ℕ → ℕ) (now : ℕ) : ℕ :=
  match q.timers with
  | [] => now + 24 * 60 * 60 * 1000
  | e :: _ => deadline e.2

end TimerQueueInternal
end Concurrencpp
