import Concurrencpp.Timers.DelayFunctions

/-!
# The timer queue without its references

Which requests the worker takes, which timers it holds and when it fires them does not depend on who
owns a `timer_state`.  `TimerMachine` forgets the use counts, the callables and the tasks of the
executors: where a `shared_ptr` dies, user code may begin.

* `Quiet`: a thread goes on without touching the lock, the requests or the containers.
* `WorkStep`: a step of `process_timers`, or of the death of the containers.
* `TimerMachine.Step`: a step of the timer queue.
* `step_machine`: every step of `TimerSystem` is a step of its machine.

The invariants of the queue are proved for the steps of the machine.
-/

namespace Concurrencpp

open Function (update update_eq_self comp_update)

/-- What the queue reads of a `timer_state`. -/
@[ext] structure Schedule where
  frequency : ℕ
  deadline : ℕ
  cancelled : Bool
  isOneshot : Bool

def TimerState.schedule (x : TimerState) : Schedule :=
  ⟨x.frequency, x.deadline, x.cancelled, x.isOneshot⟩

/-- `handles x` counts the `timer` objects of the timer `x`. -/
@[ext] structure TimerMachine where
  lock : Option TimerThread
  requestQueue : List (ℕ × TimerRequest)
  abort : Bool
  idle : Bool
  now : ℕ
  created : ℕ
  schedule : ℕ → Schedule
  handles : ℕ → ℕ
  posts : ℕ → ℕ
  frames : TimerThread → List Frame

/-! ### Stacks -/

def Frame.isWorkLoop : Frame → Bool
  | .workLoop _ _ _ => true
  | _ => false

/-- The frame is in a critical section, or it carries a timer to the queue, or it is the worker. -/
def Frame.busy : Frame → Bool
  | .user | .task _ _ _ => false
  | .makeTimer _ pc => pc.pending || pc.holds
  | .cancel _ _ => true
  | .shutdown pc => pc.holds
  | .workLoop _ _ _ => true

/-- The requests that the worker has taken, and not finished yet. -/
def WorkLoopPc.requests : WorkLoopPc → List (ℕ × TimerRequest)
  | .process rs => rs
  | .erase x rs | .unmap x rs | .removed x rs => (x, .remove) :: rs
  | _ => []

/-- The timers that are to be removed. -/
def removals (rs : List (ℕ × TimerRequest)) : List ℕ :=
  rs.filterMap fun r => if r.2 = .remove then some r.1 else none

/-- The timers that the frame is making, cancelling or removing. -/
def Frame.tokens : Frame → List ℕ
  | .makeTimer x _ => [x]
  | .cancel x _ => [x]
  | .workLoop pc _ _ => removals pc.requests
  | _ => []

/-- The stack changes in frames that are not busy only, and they get no timer. -/
structure Quiet (fs fs' : List Frame) : Prop where
  busy : fs'.filter Frame.busy = fs.filter Frame.busy
  tokens : (fs'.flatMap Frame.tokens).Sublist (fs.flatMap Frame.tokens)

/-- User code or a posted task may begin. -/
inductive Covers (fs : List Frame) : List Frame → Prop
  | bare : Covers fs fs
  | user : Covers fs (.user :: fs)
  | task (x k : ℕ) : Covers fs (.task x k .execute :: fs)

theorem Covers.quiet {fs fs' : List Frame} (h : Covers fs fs') : Quiet fs fs' := by
  cases h with
  | _ => exact ⟨rfl, .refl _⟩

theorem Quiet.trans {fs fs' fs'' : List Frame} (h : Quiet fs fs') (h' : Quiet fs' fs'') :
    Quiet fs fs'' :=
  ⟨h'.busy.trans h.busy, h'.tokens.trans h.tokens⟩

/-- A frame that is not busy is replaced. -/
theorem Quiet.head {f g : Frame} {rest : List Frame} (hf : f.busy = false) (hg : g.busy = false)
    (hm : g.tokens = f.tokens) : Quiet (f :: rest) (g :: rest) where
  busy := by simp [hf, hg]
  tokens := by simp [hm]

/-- A frame that is not busy ends. -/
theorem Quiet.pop {f : Frame} {rest : List Frame} (hf : f.busy = false) :
    Quiet (f :: rest) rest where
  busy := by simp [hf]
  tokens := by
    rw [List.flatMap_cons]
    exact List.sublist_append_right _ _

/-- A frame begins that is not busy and gets no timer. -/
theorem Quiet.push {f : Frame} {fs : List Frame} (hf : f.busy = false) (hm : f.tokens = []) :
    Quiet fs (f :: fs) where
  busy := by simp [hf]
  tokens := by simp [hm]

/-- The steps that lock `m_lock`. -/
inductive Acquires : Frame → Frame → Prop
  | makeTimer (x : ℕ) : Acquires (.makeTimer x .lock) (.makeTimer x .addTimer)
  | cancel (x : ℕ) : Acquires (.cancel x .lock) (.cancel x .push)
  | shutdown : Acquires (.shutdown .lock) (.shutdown .check)
  | locked (q : TimerQueueInternal) (deadline : ℕ) :
      Acquires (.workLoop .lock q deadline) (.workLoop .locked q deadline)
  | notified (q : TimerQueueInternal) (deadline : ℕ) :
      Acquires (.workLoop .waiting q deadline) (.workLoop .locked q deadline)
  | timedOut (q : TimerQueueInternal) (deadline : ℕ) :
      Acquires (.workLoop .waiting q deadline) (.workLoop .timedOut q deadline)

namespace TimerMachine

def setFrames (v : TimerMachine) (t : TimerThread) (fs : List Frame) : TimerMachine :=
  { v with frames := update v.frames t fs }

def setSchedule (v : TimerMachine) (x : ℕ) (c : Schedule) : TimerMachine :=
  { v with schedule := update v.schedule x c }

def release (v : TimerMachine) (t : TimerThread) (fs : List Frame) : TimerMachine :=
  { v.setFrames t fs with lock := none }

def deadlines (v : TimerMachine) (x : ℕ) : ℕ := (v.schedule x).deadline

/-! ### Steps -/

/-- A step of the worker outside the critical sections; it changes nothing but its own
containers. -/
inductive WorkStep (v : TimerMachine) :
    WorkLoopPc → TimerQueueInternal → WorkLoopPc → TimerQueueInternal → Prop
  | begin (q : TimerQueueInternal) : WorkStep v (.process []) q (.pass v.now) q
  | add (x : ℕ) (rs : List (ℕ × TimerRequest)) (q : TimerQueueInternal) :
      WorkStep v (.process ((x, .add) :: rs)) q (.process rs) (q.addTimerInternal v.deadlines x)
  | found {x : ℕ} (rs : List (ℕ × TimerRequest)) {q : TimerQueueInternal} {node : ℕ} :
      q.find x = some node → WorkStep v (.process ((x, .remove) :: rs)) q (.erase x rs) q
  | missing {x : ℕ} (rs : List (ℕ × TimerRequest)) {q : TimerQueueInternal} :
      q.find x = none → WorkStep v (.process ((x, .remove) :: rs)) q (.removed x rs) q
  | erase (x : ℕ) (rs : List (ℕ × TimerRequest)) (q : TimerQueueInternal) :
      WorkStep v (.erase x rs) q (.unmap x rs) ((q.find x).elim q q.eraseNode)
  | unmap (x : ℕ) (rs : List (ℕ × TimerRequest)) (q : TimerQueueInternal) :
      WorkStep v (.unmap x rs) q (.removed x rs) (q.unmap x)
  | removed (x : ℕ) (rs : List (ℕ × TimerRequest)) (q : TimerQueueInternal) :
      WorkStep v (.removed x rs) q (.process rs) q
  | noTimers (now : ℕ) {q : TimerQueueInternal} :
      q.timers = [] → WorkStep v (.pass now) q (.finish now) q
  | extract {now node x : ℕ} {ts : List (ℕ × ℕ)} {q : TimerQueueInternal} :
      q.timers = (node, x) :: ts → v.deadlines x ≤ now →
      WorkStep v (.pass now) q (.extracted now node x) q.extract
  | notDue {now node x : ℕ} {ts : List (ℕ × ℕ)} {q : TimerQueueInternal} :
      q.timers = (node, x) :: ts → now < v.deadlines x →
      WorkStep v (.pass now) q (.notExpired now x) q
  | notExpired (now x : ℕ) (q : TimerQueueInternal) :
      WorkStep v (.notExpired now x) q (.finish now) q
  | skip (now node : ℕ) {x : ℕ} (q : TimerQueueInternal) :
      (v.schedule x).cancelled = true →
      WorkStep v (.extracted now node x) q (.fired now node x true) q
  | posted (now node x k : ℕ) (q : TimerQueueInternal) :
      WorkStep v (.post now node x k) q (.fired now node x false) q
  | unmapFired (now node : ℕ) {x : ℕ} {cancelled : Bool} (q : TimerQueueInternal) :
      ((v.schedule x).isOneshot || cancelled) = true →
      WorkStep v (.fired now node x cancelled) q (.unmapped now x) (q.unmap x)
  | reinsert (now node : ℕ) {x : ℕ} {cancelled : Bool} (q : TimerQueueInternal) :
      ((v.schedule x).isOneshot || cancelled) = false →
      WorkStep v (.fired now node x cancelled) q (.reinserted now x) (q.reinsert v.deadlines node x)
  | unmapped (now x : ℕ) (q : TimerQueueInternal) : WorkStep v (.unmapped now x) q (.dying now x) q
  | dying (now x : ℕ) (q : TimerQueueInternal) : WorkStep v (.dying now x) q (.pass now) q
  | reinserted (now x : ℕ) (q : TimerQueueInternal) : WorkStep v (.reinserted now x) q (.pass now) q
  | finish (now : ℕ) (q : TimerQueueInternal) : WorkStep v (.finish now) q .lock q
  | abandon {q q' : TimerQueueInternal} : q'.timers.Sublist q.timers →
      q'.iteratorMapper.Sublist q.iteratorMapper → WorkStep v .aborted q .aborted q'

/-- A step of the timer queue. -/
inductive Step (v : TimerMachine) : TimerMachine → Prop
  | stay : Step v v
  | tick : Step v { v with now := v.now + 1 }
  | quiet {t : TimerThread} {fs : List Frame} : Quiet (v.frames t) fs → Step v (v.setFrames t fs)
  | make (t : TimerThread) (c : Schedule) :
      Step v { (v.setSchedule v.created c).setFrames t
        (.makeTimer v.created .lock :: v.frames t) with
        created := v.created + 1 }
  | setFrequency (x frequency : ℕ) :
      Step v (v.setSchedule x { v.schedule x with frequency := frequency })
  | publish {t : TimerThread} {x : ℕ} {rest : List Frame} :
      v.frames t = .makeTimer x .done :: rest →
      Step v { v.setFrames t rest with handles := update v.handles x (v.handles x + 1) }
  | beginCancel {x : ℕ} (t : TimerThread) : 0 < v.handles x →
      Step v { v.setFrames t (.cancel x .flag :: v.frames t) with
        handles := update v.handles x (v.handles x - 1) }
  | flag {t : TimerThread} {x : ℕ} {rest : List Frame} : v.frames t = .cancel x .flag :: rest →
      Step v ((v.setSchedule x { v.schedule x with cancelled := true }).setFrames t
        (.cancel x .lock :: rest))
  | acquire {t : TimerThread} {f g : Frame} {rest : List Frame} : v.frames t = f :: rest →
      Acquires f g → v.lock = none → Step v { v.setFrames t (g :: rest) with lock := some t }
  -- `add_timer`
  | refuse {t : TimerThread} {x : ℕ} {rest : List Frame} :
      v.frames t = .makeTimer x .addTimer :: rest →
      Step v (v.setFrames t (.makeTimer x .unwind :: rest))
  | accept {t : TimerThread} {x : ℕ} {rest : List Frame} :
      v.frames t = .makeTimer x .addTimer :: rest → v.abort = false → v.idle = false →
      Step v (v.setFrames t (.makeTimer x (.addInternalTimer none) :: rest))
  | start {t : TimerThread} {x w : ℕ} {old : Option ℕ} {rest : List Frame} :
      v.frames t = .makeTimer x .addTimer :: rest → v.abort = false → v.idle = true →
      v.frames (.worker w) = [] →
      Step v { (v.setFrames (.worker w) [.user, .workLoop .lock .init 0]).setFrames t
          (.makeTimer x (.addInternalTimer old) :: rest) with idle := false }
  | unwind {t : TimerThread} {x : ℕ} {rest fs : List Frame} :
      v.frames t = .makeTimer x .unwind :: rest → Covers (.makeTimer x .unlock :: rest) fs →
      Step v (v.setFrames t fs)
  | unlock {t : TimerThread} {x : ℕ} {rest : List Frame} :
      v.frames t = .makeTimer x .unlock :: rest →
      Step v (v.release t (.makeTimer x .destroy :: rest))
  | add {t : TimerThread} {x : ℕ} {old : Option ℕ} {rest : List Frame} :
      v.frames t = .makeTimer x (.addInternalTimer old) :: rest →
      Step v { v.release t (.makeTimer x (.join old) :: rest) with
        requestQueue := v.requestQueue ++ [(x, .add)] }
  | remove {t : TimerThread} {x : ℕ} {rest : List Frame} : v.frames t = .cancel x .push :: rest →
      Step v { v.release t rest with requestQueue := v.requestQueue ++ [(x, .remove)] }
  -- `shutdown`
  | abortIdle {t : TimerThread} {rest : List Frame} : v.frames t = .shutdown .check :: rest →
      Step v { v.release t rest with abort := true }
  | abortWorker {t : TimerThread} {rest : List Frame} : v.frames t = .shutdown .check :: rest →
      Step v { v.setFrames t (.shutdown .clear :: rest) with abort := true }
  | clear {t : TimerThread} {r : ℕ × TimerRequest} {rs : List (ℕ × TimerRequest)}
      {rest fs : List Frame} : v.frames t = .shutdown .clear :: rest → v.requestQueue = r :: rs →
      Covers (.shutdown .clear :: rest) fs → Step v { v.setFrames t fs with requestQueue := rs }
  | cleared {t : TimerThread} {rest : List Frame} : v.frames t = .shutdown .clear :: rest →
      v.requestQueue = [] → Step v (v.release t (.shutdown .join :: rest))
  -- `work_loop`
  | wake {t : TimerThread} {pc : WorkLoopPc} {q : TimerQueueInternal} {deadline : ℕ}
      {rest : List Frame} :
      v.frames t = .workLoop pc q deadline :: rest → pc = .locked ∨ pc = .timedOut →
      Step v (v.setFrames t (.workLoop .woken q deadline :: rest))
  | wait {t : TimerThread} {q : TimerQueueInternal} {deadline : ℕ} {rest : List Frame} :
      v.frames t = .workLoop .locked q deadline :: rest →
      Step v (v.release t (.workLoop .waiting q deadline :: rest))
  | goIdle {t : TimerThread} {q : TimerQueueInternal} {deadline : ℕ} {rest : List Frame} :
      v.frames t = .workLoop .timedOut q deadline :: rest → v.requestQueue = [] → v.abort = false →
      q.timers = [] → Step v { v.release t (.user :: rest) with idle := true }
  | seeAbort {t : TimerThread} {q : TimerQueueInternal} {deadline : ℕ} {rest : List Frame} :
      v.frames t = .workLoop .woken q deadline :: rest → v.abort = true →
      Step v (v.release t (.workLoop .aborted q deadline :: rest))
  | take {t : TimerThread} {q : TimerQueueInternal} {deadline : ℕ} {rest : List Frame} :
      v.frames t = .workLoop .woken q deadline :: rest → v.abort = false →
      Step v { v.release t (.workLoop (.process v.requestQueue) q deadline :: rest) with
        requestQueue := [] }
  | work {t : TimerThread} {pc pc' : WorkLoopPc} {q q' : TimerQueueInternal}
      {deadline deadline' : ℕ}
      {rest fs : List Frame} :
      v.frames t = .workLoop pc q deadline :: rest → WorkStep v pc q pc' q' →
      Covers (.workLoop pc' q' deadline' :: rest) fs → Step v (v.setFrames t fs)
  | fire {t : TimerThread} {now node x : ℕ} {q : TimerQueueInternal} {deadline : ℕ}
      {rest : List Frame} : v.frames t = .workLoop (.extracted now node x) q deadline :: rest →
      (v.schedule x).cancelled = false →
      Step v { (v.setSchedule x { v.schedule x with
          deadline := v.now + (v.schedule x).frequency }).setFrames t
            (.workLoop (.post now node x (v.posts x)) q deadline :: rest) with
        posts := update v.posts x (v.posts x + 1) }
  | exit {t : TimerThread} {q : TimerQueueInternal} {deadline : ℕ} {rest : List Frame} :
      v.frames t = .workLoop .aborted q deadline :: rest → Step v (v.setFrames t (.user :: rest))

/-- A step of `process_timers`: the worker goes on, or fires the timer that it has in hand. -/
inductive ProcessStep (v : TimerMachine) (t : TimerThread) (rest : List Frame) (deadline : ℕ) :
    WorkLoopPc → TimerQueueInternal → TimerMachine → Prop
  | work {pc pc' : WorkLoopPc} {q q' : TimerQueueInternal} {deadline' : ℕ} {fs : List Frame} :
      WorkStep v pc q pc' q' → Covers (.workLoop pc' q' deadline' :: rest) fs →
      ProcessStep v t rest deadline pc q (v.setFrames t fs)
  | fire {now node x : ℕ} {q : TimerQueueInternal} : (v.schedule x).cancelled = false →
      ProcessStep v t rest deadline (.extracted now node x) q
        { (v.setSchedule x { v.schedule x with
            deadline := v.now + (v.schedule x).frequency }).setFrames t
              (.workLoop (.post now node x (v.posts x)) q deadline :: rest) with
          posts := update v.posts x (v.posts x + 1) }

theorem ProcessStep.step {v v' : TimerMachine} {t : TimerThread} {rest : List Frame} {deadline : ℕ}
    {pc : WorkLoopPc} {q : TimerQueueInternal} (hf : v.frames t = .workLoop pc q deadline :: rest)
    (h : ProcessStep v t rest deadline pc q v') : Step v v' := by
  cases h with
  | work hw hc => exact .work hf hw hc
  | fire hcancel => exact .fire hf hcancel

end TimerMachine

/-! ### The machine of a timer queue -/

namespace TimerSystem

open TimerMachine

variable {s s' : TimerSystem} {t : TimerThread} {f : Frame} {rest fs : List Frame} {x : ℕ}
  {o o' : Owner}

def machine (s : TimerSystem) : TimerMachine where
  lock := s.lock
  requestQueue := s.requestQueue
  abort := s.abort
  idle := s.idle
  now := s.now
  created := s.created
  schedule x := (s.timers x).schedule
  handles x := (s.owners x).count .handle
  posts := s.posts
  frames := s.frames

theorem machine_setOwners {os : List Owner} : (s.setOwners x os).machine =
    { s.machine with handles := update s.machine.handles x (os.count .handle) } := by
  ext1
  case handles => exact comp_update (List.count Owner.handle) s.owners x os
  all_goals rfl

theorem machine_setOwners_same {os : List Owner}
    (h : os.count .handle = (s.owners x).count .handle) :
    (s.setOwners x os).machine = s.machine := by
  rw [machine_setOwners, h]
  ext1
  case handles => exact update_eq_self ..
  all_goals rfl

theorem machine_copy (ho : o ≠ .handle) : (s.copy x o).machine = s.machine :=
  machine_setOwners_same (List.count_cons_of_ne ho)

theorem machine_move (ho : o ≠ .handle) (ho' : o' ≠ .handle) :
    (s.move x o o').machine = s.machine := by
  refine machine_setOwners_same ?_
  rw [List.count_cons_of_ne ho', List.count_erase_of_ne ho.symm]

theorem machine_setTimer {timer : TimerState} :
    (s.setTimer x timer).machine = s.machine.setSchedule x timer.schedule := by
  ext1
  case schedule =>
    exact comp_update TimerState.schedule s.timers x timer
  all_goals rfl

theorem machine_setTimer_same (timer : TimerState) (h : timer.schedule = (s.timers x).schedule) :
    (s.setTimer x timer).machine = s.machine := by
  rw [machine_setTimer, h]
  ext1
  case schedule => exact update_eq_self ..
  all_goals rfl

theorem machine_destroyTimer : (s.destroyTimer x).machine = s.machine := by
  unfold destroyTimer
  split
  · rfl
  next g _ => exact machine_setTimer_same { s.timers x with callable := .functor g.disarm } rfl

theorem machine_invokeCallable : (s.invokeCallable x).machine = s.machine := by
  unfold invokeCallable
  split
  · rfl
  · split
    next p _ => exact machine_setTimer_same { s.timers x with callable := .functor p.1 } rfl
    · rfl

/-- Where a reference dies, user code may begin. -/
theorem machine_drop (s : TimerSystem) (t : TimerThread) (x : ℕ) (fs : List Frame)
    (ho : o ≠ .handle) :
    ∃ fs', Covers fs fs' ∧ (s.drop t x o fs).machine = s.machine.setFrames t fs' := by
  have hcount : ((s.owners x).erase o).count .handle = (s.owners x).count .handle :=
    List.count_erase_of_ne ho.symm
  unfold drop
  simp only
  split_ifs
  · refine ⟨.user :: fs, .user, ?_⟩
    change (TimerSystem.machine _).setFrames t _ = _
    rw [machine_destroyTimer, machine_setOwners_same hcount]
  · refine ⟨fs, .bare, ?_⟩
    change (TimerSystem.machine _).setFrames t _ = _
    rw [machine_setOwners_same hcount]

theorem machine_takeRequests :
    (s.takeRequests t).machine = { s.machine with requestQueue := [] } := by
  have hcount : ∀ os : List Owner, (os.map (Owner.take t)).count .handle = os.count .handle := by
    intro os
    induction os with
    | nil => rfl
    | cons o _ ih =>
      rw [List.map_cons]
      by_cases ho : o = .handle
      · subst ho
        change List.count Owner.handle (.handle :: _) = _
        rw [List.count_cons_self, List.count_cons_self, ih]
      · have hne : Owner.take t o ≠ .handle := by
          cases o <;> simp_all [Owner.take]
        rw [List.count_cons_of_ne hne, List.count_cons_of_ne ho, ih]
  ext1
  case handles =>
    funext y
    exact hcount (s.owners y)
  all_goals rfl

/-! ### Every step is a step of the machine -/

/-- A reference dies in a frame that is not busy. -/
theorem step_drop_quiet (hf : s.frames t = f :: rest) (hq : Quiet (f :: rest) fs)
    (ho : o ≠ .handle) : Step s.machine (s.drop t x o fs).machine := by
  obtain ⟨fs', hc, hm⟩ := machine_drop s t x fs ho
  rw [hm]
  refine .quiet (Quiet.trans ?_ hc.quiet)
  rw [← hf] at hq
  exact hq

theorem step_quiet (hf : s.frames t = f :: rest) (hq : Quiet (f :: rest) fs) :
    Step s.machine (s.setFrames t fs).machine := by
  rw [← hf] at hq
  exact .quiet hq

theorem step_acquire {g : Frame} (hf : s.frames t = f :: rest) (ha : Acquires f g)
    (hs : s.acquire t (g :: rest) = some s') : Step s.machine s'.machine := by
  obtain ⟨hfree, rfl⟩ := acquire_eq_some hs
  exact .acquire hf ha hfree

theorem makeTimerStep_machine {pc : MakePc} (h : s.DelayInv)
    (hf : s.frames t = .makeTimer x pc :: rest) (hs : s.makeTimerStep t x rest pc = some s') :
    Step s.machine s'.machine := by
  cases pc with
  | lock =>
    have hstep := step_acquire (s := s.copy x (.newTimer t rest.length)) hf (.makeTimer x) hs
    rwa [machine_copy (by simp)] at hstep
  | addTimer =>
    simp only [makeTimerStep, ensureWorkerThread] at hs
    split_ifs at hs with habort hidle
    · cases hs
      exact .refuse hf
    · cases hs
      exact .start hf (Bool.eq_false_iff.2 habort) hidle (h.fresh s.workers le_rfl)
    · cases hs
      exact .accept hf (Bool.eq_false_iff.2 habort) (Bool.eq_false_iff.2 hidle)
  | unwind =>
    cases hs
    obtain ⟨fs, hc, hm⟩ := machine_drop s t x (.makeTimer x .unlock :: rest)
      (o := .newTimer t rest.length) (by simp)
    rw [hm]
    exact .unwind hf hc
  | unlock =>
    cases hs
    exact .unlock hf
  | destroy =>
    cases hs
    exact step_drop_quiet hf (.pop rfl) (by simp)
  | addInternalTimer =>
    cases hs
    have hm := machine_copy (s := s) (x := x) (o := .request .add) (by simp)
    have hstep := Step.add (v := s.machine) hf
    rw [← hm] at hstep ⊢
    exact hstep
  | join old =>
    have hq : Quiet (.makeTimer x (.join old) :: rest) (.makeTimer x .endAddTimer :: rest) :=
      .head rfl rfl rfl
    cases old with
    | none =>
      cases hs
      exact step_quiet hf hq
    | some =>
      simp only [makeTimerStep] at hs
      split_ifs at hs
      cases hs
      exact step_quiet hf hq
  | endAddTimer =>
    cases hs
    exact step_drop_quiet hf (.head rfl rfl rfl) (by simp)
  | done =>
    simp only [makeTimerStep] at hs
    split at hs
    · cases hs
      -- the variable becomes the `timer`
      have hstep := Step.publish (v := s.machine) hf
      have hcount : (Owner.handle :: (s.owners x).erase (.timerState t rest.length)).count .handle =
          s.machine.handles x + 1 := by
        rw [List.count_cons_self, List.count_erase_of_ne (by simp)]
        rfl
      change Step s.machine
        ((s.move x (.timerState t rest.length) .handle).machine.setFrames t rest)
      rw [TimerSystem.move, machine_setOwners, hcount]
      exact hstep
    · cases hs
      exact step_drop_quiet hf (.pop rfl) (by simp)

theorem cancelStep_machine {pc : CancelPc} (hf : s.frames t = .cancel x pc :: rest)
    (hs : s.cancelStep t x rest pc = some s') : Step s.machine s'.machine := by
  cases pc with
  | flag =>
    cases hs
    have hm : ((s.setTimer x (s.timers x).cancel).setFrames t (.cancel x .lock :: rest)).machine =
        (s.machine.setSchedule x { s.machine.schedule x with cancelled := true }).setFrames t
          (.cancel x .lock :: rest) :=
      congrArg (TimerMachine.setFrames · t (.cancel x .lock :: rest)) machine_setTimer
    rw [hm]
    exact .flag hf
  | lock => exact step_acquire hf (.cancel x) hs
  | push =>
    cases hs
    have hm : (s.move x (.state t rest.length) (.request .remove)).machine = s.machine :=
      machine_move (by simp) (by simp)
    have hstep := Step.remove (v := s.machine) hf
    rw [← hm] at hstep ⊢
    exact hstep

theorem shutdownStep_machine {pc : TimerShutdownPc} (hf : s.frames t = .shutdown pc :: rest)
    (hs : s.shutdownStep t rest pc = some s') : Step s.machine s'.machine := by
  cases pc with
  | exchange =>
    simp only [shutdownStep] at hs
    split_ifs at hs <;> cases hs
    · exact step_quiet hf (.pop rfl)
    · exact step_quiet hf (.head rfl rfl rfl)
  | lock => exact step_acquire hf .shutdown hs
  | check =>
    simp only [shutdownStep] at hs
    split at hs <;> cases hs
    · exact .abortIdle hf
    · exact .abortWorker hf
  | clear =>
    simp only [shutdownStep] at hs
    split at hs
    next hq =>
      cases hs
      exact .cleared hf hq
    next y r requests hq =>
      cases hs
      obtain ⟨fs, hc, hm⟩ := machine_drop { s with requestQueue := requests } t y
        (.shutdown .clear :: rest) (o := .request r) (by simp)
      rw [hm]
      exact .clear hf hq hc
  | join =>
    simp only [shutdownStep] at hs
    split at hs
    · cases hs
      exact step_quiet hf (.pop rfl)
    · split_ifs at hs <;> cases hs
      · exact step_quiet hf (.pop rfl)
      · exact step_quiet hf (.pop rfl)

section Worker

variable {q q' : TimerQueueInternal} {deadline : ℕ} {pc pc' : WorkLoopPc}

theorem processStep_drop (hw : WorkStep s.machine pc q pc' q') (ho : o ≠ .handle) :
    ProcessStep s.machine t rest deadline pc q
      (s.drop t x o (workLoopFrame q' deadline rest pc')).machine := by
  obtain ⟨fs', hc, hm⟩ := machine_drop s t x (workLoopFrame q' deadline rest pc') ho
  rw [hm]
  exact .work hw hc

/-- The worker owns the timer in another way, and goes on. -/
theorem processStep_of_eq {u : TimerSystem} (hu : u.machine = s.machine)
    (hw : WorkStep s.machine pc q pc' q') :
    ProcessStep s.machine t rest deadline pc q
      (u.setFrames t (workLoopFrame q' deadline rest pc')).machine := by
  change ProcessStep s.machine t rest deadline pc q (u.machine.setFrames t _)
  rw [hu]
  exact .work hw .bare

theorem processTimersStep_machine (hs : s.processTimersStep t q deadline rest pc = some s') :
    ProcessStep s.machine t rest deadline pc q s'.machine := by
  cases pc with
  | process requests =>
    cases requests with
    | nil =>
      cases hs
      exact .work (.begin q) .bare
    | cons p requests =>
      obtain ⟨x, r⟩ := p
      cases r with
      | add =>
        cases hs
        refine processStep_of_eq ?_ (.add x requests q)
        rw [machine_copy (by simp), machine_move (by simp) (by simp)]
      | remove =>
        simp only [processTimersStep] at hs
        have hm : (s.move x (.taken t .remove) (.existingTimer t)).machine = s.machine :=
          machine_move (by simp) (by simp)
        cases hfind : q.find x with
        | none =>
          rw [hfind] at hs
          cases hs
          exact processStep_of_eq hm (.missing requests hfind)
        | some =>
          rw [hfind] at hs
          cases hs
          exact processStep_of_eq hm (.found requests hfind)
  | erase x requests =>
    cases hs
    exact processStep_drop (.erase x requests q) (by simp)
  | unmap x requests =>
    cases hs
    exact processStep_drop (.unmap x requests q) (by simp)
  | removed x requests =>
    cases hs
    exact processStep_drop (.removed x requests q) (by simp)
  | pass now =>
    simp only [processTimersStep] at hs
    split at hs
    next hnil =>
      cases hs
      exact .work (.noTimers now hnil) .bare
    next node x ts hcons =>
      have hm := machine_copy (s := s) (x := x) (o := .current t) (by simp)
      split_ifs at hs with hexp <;> cases hs
      · exact processStep_of_eq hm (.extract hcons (of_decide_eq_true hexp))
      · refine processStep_of_eq hm (.notDue hcons (not_le.1 fun hle => hexp ?_))
        exact decide_eq_true hle
  | notExpired now x =>
    cases hs
    exact processStep_drop (.notExpired now x q) (by simp)
  | extracted now node x =>
    simp only [processTimersStep] at hs
    split_ifs at hs with hcancel
    · cases hs
      exact .work (.skip now node q hcancel) .bare
    · cases hs
      have hstep : ProcessStep s.machine t rest deadline (.extracted now node x) q _ :=
        .fire (Bool.eq_false_iff.2 hcancel)
      have hm : ((s.setTimer x ((s.timers x).rearm s.now)).copy x (.posting t)).machine =
          s.machine.setSchedule x { s.machine.schedule x with
            deadline := s.machine.now + (s.machine.schedule x).frequency } := by
        rw [machine_copy (by simp), machine_setTimer]
        rfl
      rw [← hm] at hstep
      exact hstep
  | fired now node =>
    simp only [processTimersStep] at hs
    split_ifs at hs with hend <;> cases hs
    · exact processStep_drop (.unmapFired now node q hend) (by simp)
    · exact .work (.reinsert now node q (Bool.eq_false_iff.2 hend)) .bare
  | unmapped now x =>
    cases hs
    exact processStep_drop (.unmapped now x q) (by simp)
  | dying now x =>
    cases hs
    exact processStep_drop (.dying now x q) (by simp)
  | reinserted now x =>
    cases hs
    exact processStep_drop (.reinserted now x q) (by simp)
  | finish now =>
    cases hs
    exact .work (.finish now q) .bare
  | _ => cases hs

theorem workLoopStep_machine (hf : s.frames t = .workLoop pc q deadline :: rest)
    (hs : s.workLoopStep t q deadline rest pc = some s') : Step s.machine s'.machine := by
  cases pc with
  | lock => exact step_acquire hf (.locked q deadline) hs
  | waiting => exact step_acquire hf (.notified q deadline) hs
  | locked =>
    simp only [workLoopStep] at hs
    split_ifs at hs <;> cases hs
    · exact .wake hf (.inl rfl)
    · exact .wait hf
  | timedOut =>
    simp only [workLoopStep] at hs
    split_ifs at hs with hevent <;> cases hs
    · exact .wake hf (.inr rfl)
    · simp only [hasEvent, Bool.or_eq_true, Bool.not_eq_true', not_or, Bool.not_eq_false,
        Bool.not_eq_true, List.isEmpty_iff, TimerQueueInternal.empty] at hevent
      exact .goIdle hf hevent.1.1 hevent.1.2 hevent.2
  | woken =>
    simp only [workLoopStep] at hs
    split_ifs at hs with habort <;> cases hs
    · exact .seeAbort hf habort
    · have hstep := Step.take (v := s.machine) hf (Bool.eq_false_iff.2 habort)
      change Step s.machine { (s.takeRequests t).machine.release t _ with requestQueue := _ }
      rw [machine_takeRequests]
      exact hstep
  | aborted =>
    simp only [workLoopStep] at hs
    split at hs <;> cases hs
    next hmap =>
      refine ProcessStep.step hf (processStep_drop (.abandon (.refl _) ?_) (by simp))
      rw [hmap]
      exact .cons _ (.refl _)
    next hts =>
      refine ProcessStep.step hf (processStep_drop (.abandon ?_ (.refl _)) (by simp))
      rw [hts]
      exact .cons _ (.refl _)
    · exact .exit hf
  | _ => exact ProcessStep.step hf (processTimersStep_machine hs)

end Worker

theorem taskStep_machine {k : ℕ} {pc : TimerTaskPc} (hf : s.frames t = .task x k pc :: rest)
    (hs : s.taskStep t x k rest pc = some s') : Step s.machine s'.machine := by
  cases pc with
  | execute =>
    have hq : Quiet (.task x k .execute :: rest) (.task x k .destroy :: rest) := .head rfl rfl rfl
    simp only [taskStep] at hs
    split_ifs at hs <;> cases hs
    · exact step_quiet hf hq
    · change Step s.machine ((s.invokeCallable x).machine.setFrames t _)
      rw [machine_invokeCallable]
      exact step_quiet hf (hq.trans (.push rfl rfl))
  | destroy =>
    cases hs
    exact step_drop_quiet hf (.pop rfl) (by simp)

theorem nextStep_machine (h : s.DelayInv) (hf : s.frames t = f :: rest)
    (hs : s.nextStep t rest f = some s') : Step s.machine s'.machine := by
  cases f with
  | user => cases hs
  | makeTimer => exact makeTimerStep_machine h hf hs
  | cancel => exact cancelStep_machine hf hs
  | shutdown => exact shutdownStep_machine hf hs
  | workLoop => exact workLoopStep_machine hf hs
  | task => exact taskStep_machine hf hs

theorem makeTimerImpl_machine {dueTime frequency : ℕ} {isOneshot : Bool}
    {callable : TimerCallable} :
    Step s.machine (s.makeTimerImpl t dueTime frequency isOneshot callable).machine := by
  have hm :
      ((s.setTimer s.created (.make s.now dueTime frequency isOneshot callable)).copy s.created
      (.timerState t (s.frames t).length)).machine =
        s.machine.setSchedule s.created ⟨frequency, s.now + dueTime, false, isOneshot⟩ := by
    rw [machine_copy (by simp), machine_setTimer]
    rfl
  have hstep := Step.make (v := s.machine) t ⟨frequency, s.now + dueTime, false, isOneshot⟩
  change Step s.machine { (TimerSystem.machine _).setFrames t _ with created := _ }
  rw [hm]
  exact hstep

theorem call_machine {c : TimerCall} (hs : s.call t c = some s') : Step s.machine s'.machine := by
  cases c with
  | makeTimer | makeOneShotTimer
  | makeDelayObject =>
    simp only [call] at hs
    split_ifs at hs <;> cases hs
    · exact makeTimerImpl_machine
    · exact .stay
  | cancel x =>
    simp only [call] at hs
    split_ifs at hs with hmem
    cases hs
    have hpos : 0 < s.machine.handles x := List.count_pos_iff.2 hmem
    have hstep := Step.beginCancel (v := s.machine) t hpos
    have hcount : (Owner.state t (s.frames t).length :: (s.owners x).erase .handle).count .handle =
        s.machine.handles x - 1 := by
      rw [List.count_cons_of_ne (by simp), List.count_erase_self]
      rfl
    change Step s.machine ((s.move x .handle (.state t (s.frames t).length)).machine.setFrames t _)
    rw [TimerSystem.move, machine_setOwners, hcount]
    exact hstep
  | setFrequency x frequency =>
    simp only [call] at hs
    split_ifs at hs
    cases hs
    rw [machine_setTimer]
    exact .setFrequency x frequency
  | shutdown =>
    cases hs
    exact .quiet (.push rfl rfl)

theorem takeTask_machine {k : ℕ} {pc : TimerTaskPc} (hs : s.takeTask t x k pc = some s') :
    Step s.machine s'.machine := by
  unfold takeTask at hs
  split_ifs at hs
  cases hs
  have hm : (s.move x (.task k) (.running t (s.frames t).length)).machine = s.machine :=
    machine_move (by simp) (by simp)
  change Step s.machine
    ((s.move x (.task k) (.running t (s.frames t).length)).machine.setFrames t _)
  rw [hm]
  exact .quiet (.push rfl rfl)

/-- **Every step of the timer queue is a step of its machine.** -/
theorem step_machine {m : TimerMove} (h : s.DelayInv) (hs : s.step m = some s') :
    Step s.machine s'.machine := by
  unfold step at hs
  split_ifs at hs
  cases m <;> simp only [liveStep] at hs
  case enter n =>
    split_ifs at hs with hf
    cases hs
    refine .quiet ?_
    change Quiet (s.frames (.caller n)) _
    rw [hf]
    exact .push rfl rfl
  case leave =>
    split at hs
    next rest hf =>
      cases hs
      exact step_quiet hf (.pop rfl)
    · cases hs
  case call =>
    split at hs
    · exact call_machine hs
    · cases hs
  case step =>
    split at hs
    · cases hs
    next f rest hf => exact nextStep_machine h hf hs
  case timeout =>
    simp only [timeout] at hs
    split at hs
    next q deadline rest hf =>
      split_ifs at hs
      exact step_acquire hf (.timedOut q deadline) hs
    · cases hs
  case fail =>
    split at hs
    next x rest hf =>
      unfold failToStart at hs
      split_ifs at hs
      split at hs <;> cases hs
      · exact .stay
      · exact .refuse hf
    · cases hs
  case store t =>
    obtain ⟨now, node, x, k, q, deadline, rest, hf, rfl⟩ := post_eq_some hs
    have hm : (s.move x (.posting t) (.task k)).machine = s.machine :=
      machine_move (by simp) (by simp)
    change Step s.machine ((s.move x (.posting t) (.task k)).machine.setFrames t _)
    rw [hm]
    exact .work hf (.posted now node x k q) .bare
  case inline t =>
    obtain ⟨now, node, x, k, q, deadline, rest, hf, rfl⟩ := post_eq_some hs
    change Step s.machine ((s.move x (.posting t) _).machine.setFrames t _)
    rw [machine_move (by simp) (by simp)]
    exact .work hf (.posted now node x k q) (.task x k)
  case throw =>
    obtain ⟨now, node, x, k, q, deadline, rest, hf, rfl⟩ := post_eq_some hs
    exact .stay
  case run | discard => exact takeTask_machine hs
  case tick =>
    cases hs
    exact .tick

end TimerSystem
end Concurrencpp
