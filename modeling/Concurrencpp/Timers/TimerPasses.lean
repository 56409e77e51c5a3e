import Concurrencpp.Interleaving
import Concurrencpp.Timers.TimerQueueInternal

/-!
# The passes of `process_timers`

`timer_queue_internal` over one pass of `process_timers` after the other, with the arithmetic of its
clock.

* A time point is a number of nanoseconds and a duration given by the user a number of milliseconds,
  both in signed 64-bit integers; what leaves their range wraps around.  `due_time` and `frequency`
  are stored as `size_t` (`toSize`) and read back as milliseconds (`fromSize`).
* A worker takes the steps of `process_timers`; a step that reads the clock gets the reading.  In
  between, other threads make timers, cancel them and change their frequencies, and so may the
  executors that run the posted tasks.
* `begins` hands the next requests to `process_timers`.

Three fields are records of the run: `added` lists the timers with a request to add them, `fired`
counts how often a timer has been fired in the current pass, `clock` is the last reading of the
clock.  `assertFailed` says that an assertion has failed.
-/

namespace Concurrencpp

/-! ### Time -/

/-- A result of signed 64-bit arithmetic. -/
def wrap (x : ℤ) : ℤ := x.bmod (2 ^ 64)

/-- A count of milliseconds as a `size_t`. -/
def toSize (count : ℤ) : ℕ := (count % 2 ^ 64).toNat

/-- `std::chrono::milliseconds` of a `size_t`. -/
def fromSize (n : ℕ) : ℤ := wrap n

/-- The sum of a time point and some milliseconds. -/
def addMilliseconds (t ms : ℤ) : ℤ := wrap (t + wrap (ms * 10 ^ 6))

/-- `std::chrono::hours(24)`. -/
def dayInMilliseconds : ℤ := 24 * 60 * 60 * 1000

/-- `details::timer_state_base`. -/
structure TimerStateBase where
  frequency : ℕ
  deadline : ℤ
  cancelled : Bool
  isOneshot : Bool
  deriving DecidableEq, Repr

namespace TimerStateBase

/-- `make_deadline`. -/
def makeDeadline (reading diff : ℤ) : ℤ := addMilliseconds reading diff

/-- The constructor. -/
def make (reading : ℤ) (dueTime frequency : ℕ) (isOneshot : Bool) : TimerStateBase where
  frequency := frequency
  deadline := makeDeadline reading (fromSize dueTime)
  cancelled := false
  isOneshot := isOneshot

def expired (x : TimerStateBase) (now : ℤ) : Bool := x.deadline ≤ now

/-- The first statements of `fire`. -/
def rearm (x : TimerStateBase) (reading : ℤ) : TimerStateBase :=
  { x with deadline := makeDeadline reading (fromSize x.frequency) }

def cancel (x : TimerStateBase) : TimerStateBase := { x with cancelled := true }

def setNewFrequency (x : TimerStateBase) (frequency : ℕ) : TimerStateBase :=
  { x with frequency := frequency }

end TimerStateBase

/-! ### Passes -/

/-- Where the worker is: behind a pass, with its `now` and what it has returned, or in one. -/
inductive PassPc
  | returned (last : Option (ℤ × ℤ))
  | requests (rs : List (ℕ × TimerRequest))
  | loop (now : ℤ)
  | extracted (now : ℤ) (node x : ℕ)
  | fire (now : ℤ) (node x : ℕ)
  | fired (now : ℤ) (node x : ℕ) (cancelled : Bool)
  | finish (now : ℤ)
  deriving DecidableEq, Repr

/-- The containers, the timers and the worker. -/
structure TimerPasses where
  timers : ℕ → TimerStateBase
  created : ℕ
  queue : TimerQueueInternal
  pc : PassPc
  added : List ℕ
  fired : ℕ → ℕ
  clock : ℤ
  assertFailed : Bool

/-- What happens next; durations are counts of milliseconds. -/
inductive PassMove
  | makeTimer (reading dueTime frequency : ℤ)
  | makeOneShotTimer (reading dueTime : ℤ)
  | cancel (x : ℕ)
  | setFrequency (x : ℕ) (frequency : ℤ)
  | begins (rs : List (ℕ × TimerRequest))
  | work (reading : ℤ)
  deriving DecidableEq, Repr

/-- The timers that the requests add. -/
def addedBy (rs : List (ℕ × TimerRequest)) : List ℕ := (rs.filter fun r => r.2 = .add).map Prod.fst

namespace TimerPasses

def initial : TimerPasses where
  timers := fun _ => .make 0 0 0 false
  created := 0
  queue := .init
  pc := .returned none
  added := []
  fired := fun _ => 0
  clock := -2 ^ 63
  assertFailed := false

/-- The deadlines by which `m_timers` is ordered. -/
def deadlines (s : TimerPasses) (x : ℕ) : ℤ := (s.timers x).deadline

def setTimer (s : TimerPasses) (x : ℕ) (timer : TimerStateBase) : TimerPasses :=
  { s with timers := Function.update s.timers x timer }

/-- `assert`. -/
def check (s : TimerPasses) (b : Bool) : TimerPasses :=
  { s with assertFailed := s.assertFailed || !b }

/-- The worker goes on at `pc`, with the containers `q`. -/
def goto (s : TimerPasses) (pc : PassPc) (q : TimerQueueInternal) : TimerPasses :=
  { s with pc := pc, queue := q }

/-! ### `timer_queue` and `timer` -/

/-- `make_timer_impl`, up to the request. -/
def makeTimerImpl (s : TimerPasses) (reading : ℤ) (dueTime frequency : ℕ) (isOneshot : Bool) :
    TimerPasses :=
  { s.setTimer s.created (.make reading dueTime frequency isOneshot) with created := s.created + 1 }

def makeTimer (s : TimerPasses) (reading dueTime frequency : ℤ) : TimerPasses :=
  s.makeTimerImpl reading (toSize dueTime) (toSize frequency) false

def makeOneShotTimer (s : TimerPasses) (reading dueTime : ℤ) : TimerPasses :=
  s.makeTimerImpl reading (toSize dueTime) 0 true

/-! ### `timer_queue_internal` -/

/-- The assertion of `empty`. -/
def sizesAgree (q : TimerQueueInternal) : Bool := q.iteratorMapper.length = q.timers.length

def addTimerInternal (s : TimerPasses) (x : ℕ) (rs : List (ℕ × TimerRequest)) : TimerPasses :=
  (s.check (s.queue.find x).isNone).goto (.requests rs) (s.queue.addTimerInternal s.deadlines x)

def removeTimerInternal (s : TimerPasses) (x : ℕ) (rs : List (ℕ × TimerRequest)) : TimerPasses :=
  match s.queue.find x with
  | none => (s.check ((s.timers x).isOneshot || (s.timers x).cancelled)).goto (.requests rs) s.queue
  | some node => s.goto (.requests rs) ((s.queue.eraseNode node).unmap x)

/-- The head of the loop of `process_timers`. -/
def loop (s : TimerPasses) (now : ℤ) : TimerPasses :=
  match s.queue.timers with
  | [] => s.goto (.finish now) s.queue
  | (node, x) :: _ =>
      if (s.timers x).expired now then s.goto (.extracted now node x) s.queue.extract
      else s.goto (.finish now) s.queue

/-- `fire`: the next deadline, and the task is posted. -/
def fire (s : TimerPasses) (reading now : ℤ) (node x : ℕ) : TimerPasses :=
  { (s.setTimer x ((s.timers x).rearm reading)).goto (.fired now node x false) s.queue with
    fired := Function.update s.fired x (s.fired x + 1)
    clock := reading }

/-- The rest of the body of the loop: the timer dies, or goes back into the multiset. -/
def afterFire (s : TimerPasses) (now : ℤ) (node x : ℕ) (cancelled : Bool) : TimerPasses :=
  if (s.timers x).isOneshot || cancelled then s.goto (.loop now) (s.queue.unmap x)
  else (s.check (s.queue.find x).isSome).goto (.loop now) (s.queue.reinsert s.deadlines node x)

/-- `reset_containers_memory`. -/
def resetContainersMemory (q : TimerQueueInternal) : TimerQueueInternal :=
  { q with timers := [], iteratorMapper := [] }

/-- The end of `process_timers`. -/
def finish (s : TimerPasses) (now : ℤ) : TimerPasses :=
  match s.queue.timers with
  | [] =>
      (s.check (sizesAgree s.queue)).goto
        (.returned (some (now, addMilliseconds now dayInMilliseconds)))
        (resetContainersMemory s.queue)
  | (_, x) :: _ => s.goto (.returned (some (now, s.deadlines x))) s.queue

/-- The next step of `process_timers`. -/
def work (s : TimerPasses) (reading : ℤ) : Option TimerPasses :=
  match s.pc with
  | .returned _ => none
  | .requests ((x, .add) :: rs) => some (s.addTimerInternal x rs)
  | .requests ((x, .remove) :: rs) => some (s.removeTimerInternal x rs)
  | .requests [] => some { s.goto (.loop reading) s.queue with clock := reading }
  | .loop now => some (s.loop now)
  | .extracted now node x =>
      some (s.goto
        (if (s.timers x).cancelled then .fired now node x true else .fire now node x) s.queue)
  | .fire now node x => some (s.fire reading now node x)
  | .fired now node x cancelled => some (s.afterFire now node x cancelled)
  | .finish now => some (s.finish now)

/-- `work_loop` calls `empty`, and then `process_timers`. -/
def begins (s : TimerPasses) (rs : List (ℕ × TimerRequest)) : Option TimerPasses :=
  match s.pc with
  | .returned _ =>
      some { (s.check (sizesAgree s.queue)).goto (.requests rs) s.queue with
        added := s.added ++ addedBy rs
        fired := fun _ => 0 }
  | _ => none

def step (s : TimerPasses) : PassMove → Option TimerPasses
  | .makeTimer reading dueTime frequency => some (s.makeTimer reading dueTime frequency)
  | .makeOneShotTimer reading dueTime => some (s.makeOneShotTimer reading dueTime)
  | .cancel x => some (s.setTimer x (s.timers x).cancel)
  | .setFrequency x frequency =>
      some (s.setTimer x ((s.timers x).setNewFrequency (toSize frequency)))
  | .begins rs => s.begins rs
  | .work reading => s.work reading

def IsInitial (s : TimerPasses) : Prop := s = initial

/-- The requests are those of `timer_queue`: they are about timers that exist, a timer is added
once, and removed when it is cancelled. -/
def WellFormed (s : TimerPasses) : PassMove → Prop
  | .begins rs => (s.added ++ addedBy rs).Nodup ∧
      ∀ r ∈ rs, r.1 < s.created ∧ (r.2 = .remove → (s.timers r.1).cancelled = true)
  | _ => True

instance (s : TimerPasses) : (mv : PassMove) → Decidable (s.WellFormed mv)
  | .begins _ => inferInstanceAs (Decidable (_ ∧ _))
  | .makeTimer .. | .makeOneShotTimer .. | .cancel _ | .setFrequency .. | .work _ => .isTrue trivial

end TimerPasses

end Concurrencpp
