import Concurrencpp.Executors.WorkerThreadExecutor

/-!
# Delivery by the worker thread executor

`WorkerThreadExecutor.Ok` is the invariant of every run.  Its field `order` follows the tasks: those
that have been executed, those that have been destroyed, the one that the thread has taken out,
those that `shutdown` is destroying and the two queues, read in this order, hold the accepted tasks
of each of the two functions in the order of acceptance.  `wake` says that a thread that waits while
there is something to do has a permit, or somebody is about to release one.

* `ThreadStep`: what a step of the thread can do; `Ok.threadStep`.
* `Ok.enqueueForeign`, `Ok.enqueueLocal`.
* `ShutdownStep`: what a step of `shutdown` can do; `Ok.shutdownStep`, `Ok.step`.
* `tasks_delivered_once`: no lost wake-up, delivery at most once, and exactly once when `shutdown`
  has returned, in the order of acceptance.
-/

namespace Concurrencpp

/-! ### What the program counters mean -/

namespace WorkerThreadPc

variable {τ : Type}

/-- The task that the thread has taken out. -/
def held : WorkerThreadPc τ → List ((τ × TaskSource) × ℕ)
  | .popped task => [task]
  | .absent | .lock | .acquire | .relock | .drain | .running | .callback | .finished => []

/-- The private queue is empty here. -/
def waits : WorkerThreadPc τ → Bool
  | .absent | .lock | .acquire | .relock => true
  | .drain | .popped _ | .running | .callback | .finished => false

/-- The thread calls no further task. -/
def quits : WorkerThreadPc τ → Bool
  | .absent | .callback | .finished => true
  | .lock | .acquire | .relock | .drain | .popped _ | .running => false

def isAbsent : WorkerThreadPc τ → Bool
  | .absent => true
  | .lock | .acquire | .relock | .drain | .popped _ | .running | .callback | .finished => false

/-- There is no thread. -/
def gone (pc : WorkerThreadPc τ) : Bool := pc.isAbsent || pc.isFinished

end WorkerThreadPc

namespace WorkerThreadShutdownPc

variable {τ : Type}

/-- The tasks that are still to be destroyed. -/
def held : WorkerThreadShutdownPc τ → List ((τ × TaskSource) × ℕ)
  | .clear rest => rest
  | .before | .lock | .store | .release | .join | .move | .done | .failed => []

/-- `m_abort` has been set. -/
def aborted : WorkerThreadShutdownPc τ → Bool
  | .before | .lock => false
  | .store | .release | .join | .move | .clear _ | .done | .failed => true

/-- The call is between its critical section and its release of the semaphore. -/
def releases : WorkerThreadShutdownPc τ → Bool
  | .store | .release => true
  | .before | .lock | .join | .move | .clear _ | .done | .failed => false

/-- The thread has been joined. -/
def joined : WorkerThreadShutdownPc τ → Bool
  | .move | .clear _ | .done => true
  | .before | .lock | .store | .release | .join | .failed => false

/-- The queues have been moved out. -/
def moved : WorkerThreadShutdownPc τ → Bool
  | .clear _ | .done => true
  | .before | .lock | .store | .release | .join | .move | .failed => false

theorem held_of_not_joined {pc : WorkerThreadShutdownPc τ} (h : pc.joined = false) :
    pc.held = [] := by
  cases pc with
  | clear => cases h
  | _ => rfl

end WorkerThreadShutdownPc

namespace WorkerThreadExecutor

variable {τ : Type} {s u : WorkerThreadExecutor τ}

/-! ### The invariant -/

/-- All tasks, in the order in which they come to an end. -/
def history (s : WorkerThreadExecutor τ) : List ((τ × TaskSource) × ℕ) :=
  s.executed ++ s.destroyed ++ s.shutdown.held ++ s.pc.held ++ s.privateQueue ++ s.publicQueue

/-- The tasks of a list that have come in by `source`. -/
def ofSource (source : TaskSource) (l : List ((τ × TaskSource) × ℕ)) :
    List ((τ × TaskSource) × ℕ) :=
  l.filter fun task => decide (task.1.2 = source)

structure Ok (s : WorkerThreadExecutor τ) : Prop where
  order : ∀ source, ofSource source s.history = ofSource source s.accepted.zipIdx
  foreign : ∀ task ∈ s.publicQueue, task.1.2 = .enqueueForeign
  empty : s.pc.waits = true → s.privateQueue = []
  destroyed : s.pc.quits = false ∨ s.abort = false → s.destroyed = []
  stored : s.privateAtomicAbort = true → s.abort = true
  absent : s.joinable = false → s.pc.gone = true ∧ (s.abort = false → s.pc.isAbsent = true)
  aborted : s.abort = s.shutdown.aborted
  joined : s.shutdown.joined = true → s.pc.gone = true
  moved : s.shutdown.moved = true → s.privateQueue = [] ∧ s.publicQueue = []
  inside : s.inside = true → s.joinable = true
  wake : s.pc = .acquire →
    (s.publicQueue ≠ [] → 0 < s.semaphore ∨ ∃ t, s.releasing t = true) ∧
    (s.abort = true → 0 < s.semaphore ∨ s.shutdown.releases = true)
  asserts : s.assertFailed = false

theorem Ok.initial : (initial : WorkerThreadExecutor τ).Ok where
  order := fun _ => rfl
  foreign := fun task h => by cases h
  empty := fun _ => rfl
  destroyed := fun _ => rfl
  stored := fun h => by cases h
  absent := fun _ => ⟨rfl, fun _ => rfl⟩
  aborted := rfl
  joined := fun _ => rfl
  moved := fun _ => ⟨rfl, rfl⟩
  inside := fun h => by cases h
  wake := fun h => by cases h
  asserts := rfl

/-- The field `order` asks only for what has been accepted and for the history. -/
theorem Ok.order_of_history (h : s.Ok) (hhistory : u.history = s.history)
    (haccepted : u.accepted = s.accepted) (source : TaskSource) :
    ofSource source u.history = ofSource source u.accepted.zipIdx := by
  rw [hhistory, haccepted]
  exact h.order source

/-- As long as there is a thread, `shutdown` has not come past the join. -/
theorem Ok.not_joined (h : s.Ok) (hpc : s.pc.gone = false) : s.shutdown.joined = false := by
  by_contra hjoined
  rw [Bool.not_eq_false] at hjoined
  cases hpc.symm.trans (h.joined hjoined)

theorem Ok.not_joined_of_not_aborted (h : s.Ok) (habort : s.abort = false) :
    s.shutdown.joined = false := by
  have haborted := h.aborted
  rw [habort] at haborted
  cases hpc : s.shutdown with
  | move | clear | done =>
    rw [hpc] at haborted
    cases haborted
  | _ => rfl

theorem not_moved_of_not_joined (h : s.shutdown.joined = false) : s.shutdown.moved = false := by
  cases hpc : s.shutdown with
  | clear | done =>
    rw [hpc] at h
    cases h
  | _ => rfl

/-! ### The thread -/

/-- What a step of the thread can do. -/
inductive ThreadStep (s : WorkerThreadExecutor τ) : WorkerThreadExecutor τ → Prop
  | leave (hpc : s.pc = .lock ∨ s.pc = .relock) (habort : s.abort = true) :
      ThreadStep s (s.goto .callback)
  | take (hpc : s.pc = .lock ∨ s.pc = .relock) (habort : s.abort = false)
      (hqueue : s.publicQueue ≠ []) : ThreadStep s { s.check s.privateQueue.isEmpty with
        privateQueue := s.publicQueue
        publicQueue := s.privateQueue
        pc := .drain }
  | wait (hpc : s.pc = .lock ∨ s.pc = .relock) (habort : s.abort = false)
      (hqueue : s.publicQueue = []) : ThreadStep s (s.goto .acquire)
  | acquire (hpc : s.pc = .acquire) (hsem : s.semaphore ≠ 0) :
      ThreadStep s { s.goto .relock with semaphore := s.semaphore - 1 }
  | again (hpc : s.pc = .drain) (hqueue : s.privateQueue = []) : ThreadStep s (s.goto .lock)
  | pop (task : (τ × TaskSource) × ℕ) (rest : List ((τ × TaskSource) × ℕ)) (hpc : s.pc = .drain)
      (hqueue : s.privateQueue = task :: rest) :
      ThreadStep s { s.goto (.popped task) with privateQueue := rest }
  | drop (task : (τ × TaskSource) × ℕ) (hpc : s.pc = .popped task)
      (hstored : s.privateAtomicAbort = true) :
      ThreadStep s { s.goto .callback with destroyed := s.destroyed ++ [task] }
  | run (task : (τ × TaskSource) × ℕ) (hpc : s.pc = .popped task) :
      ThreadStep s { s.goto .running with executed := s.executed ++ [task] }
  | back (hpc : s.pc = .running) : ThreadStep s (s.goto .drain)
  | finish (hpc : s.pc = .callback) : ThreadStep s (s.goto .finished)

theorem takeQueue_cases (hpc : s.pc = .lock ∨ s.pc = .relock)
    (hcond : s.publicQueue ≠ [] ∨ s.abort = true) : ThreadStep s s.takeQueue := by
  have hcheck : s.check (!s.publicQueue.isEmpty || s.abort) = s := by
    have htrue : (!s.publicQueue.isEmpty || s.abort) = true := by simpa using hcond
    simp [check, htrue]
  unfold takeQueue
  rw [hcheck]
  cases habort : s.abort with
  | true => exact .leave hpc habort
  | false => exact .take hpc habort (hcond.resolve_right (by simp [habort]))

theorem threadStep_cases (hs : s.threadStep = some u) : ThreadStep s u := by
  have hlock : ∀ {u}, s.pc = .lock ∨ s.pc = .relock →
      (if s.publicQueue ≠ [] ∨ s.abort = true then some s.takeQueue else some (s.goto .acquire)) =
        some u → ThreadStep s u := by
    intro u hpc hs
    split_ifs at hs with hcond <;> cases hs
    · exact takeQueue_cases hpc hcond
    · rw [not_or, not_not, Bool.not_eq_true] at hcond
      exact .wait hpc hcond.2 hcond.1
  cases hpc : s.pc <;> simp only [WorkerThreadExecutor.threadStep, hpc] at hs
  case absent | finished => cases hs
  case lock =>
    exact hlock (.inl hpc) hs
  case relock =>
    exact hlock (.inr hpc) hs
  case acquire =>
    split_ifs at hs with hsem
    cases hs
    exact .acquire hpc hsem
  case drain =>
    split at hs
    · next hqueue =>
      cases hs
      exact .again hpc hqueue
    · next task rest hqueue =>
      cases hs
      exact .pop task rest hpc hqueue
  case popped task =>
    split_ifs at hs with hstored <;> cases hs
    · exact .drop task hpc hstored
    · exact .run task hpc
  case running =>
    cases hs
    exact .back hpc
  case callback =>
    cases hs
    exact .finish hpc

theorem waits_of_lock (hpc : s.pc = .lock ∨ s.pc = .relock) : s.pc.waits = true := by
  rcases hpc with hpc | hpc <;> rw [hpc] <;> rfl

theorem held_of_gone {pc : WorkerThreadPc τ} (h : pc.gone = true) :
    pc.held = [] ∧ pc.quits = true := by
  cases pc with
  | absent | finished => exact ⟨rfl, rfl⟩
  | _ => cases h

theorem ne_acquire_of_gone (h : s.pc.gone = true) : s.pc ≠ .acquire := by
  intro hpc
  rw [hpc] at h
  cases h

/-- Every step is one of a thread that has begun and has not ended. -/
theorem ThreadStep.not_gone (hs : ThreadStep s u) : s.pc.gone = false := by
  cases hs with
  | leave hpc | take hpc | wait hpc => rcases hpc with hpc | hpc <;> rw [hpc] <;> rfl
  | acquire hpc | again hpc | pop _ _ hpc | drop _ hpc | run _ hpc | back hpc | finish hpc =>
    rw [hpc]
    rfl

/-- What a step of the thread leaves alone. -/
theorem ThreadStep.frame (hs : ThreadStep s u) : u.joinable = s.joinable ∧ u.abort = s.abort ∧
    u.shutdown = s.shutdown ∧ u.inside = s.inside ∧ u.accepted = s.accepted ∧
    u.releasing = s.releasing := by
  cases hs <;> exact ⟨rfl, rfl, rfl, rfl, rfl, rfl⟩

/-- The thread takes the tasks from one place to the next. -/
theorem ThreadStep.history (hs : ThreadStep s u) (h : s.Ok) : u.history = s.history := by
  have hheld := WorkerThreadShutdownPc.held_of_not_joined (h.not_joined hs.not_gone)
  cases hs with
  | leave hpc | wait hpc =>
    rcases hpc with hpc | hpc <;>
      simp [WorkerThreadExecutor.history, goto, hpc, WorkerThreadPc.held]
  | take hpc =>
    have hempty := h.empty (waits_of_lock hpc)
    rcases hpc with hpc | hpc <;>
      simp [WorkerThreadExecutor.history, check, hpc, WorkerThreadPc.held, hempty]
  | acquire hpc | again hpc | back hpc | finish hpc =>
    simp [WorkerThreadExecutor.history, goto, hpc, WorkerThreadPc.held]
  | pop _ _ hpc hqueue =>
    simp [WorkerThreadExecutor.history, goto, hpc, WorkerThreadPc.held, hqueue]
  | drop _ hpc =>
    simp [WorkerThreadExecutor.history, goto, hpc, WorkerThreadPc.held, hheld]
  | run _ hpc =>
    have hnone : s.destroyed = [] := h.destroyed (.inl (by rw [hpc]; rfl))
    simp [WorkerThreadExecutor.history, goto, hpc, WorkerThreadPc.held, hheld, hnone]

theorem Ok.threadStep (h : s.Ok) (hs : ThreadStep s u) : u.Ok := by
  obtain ⟨hjoinable, habort, hshutdown, hinside, haccepted, hreleasing⟩ := hs.frame
  have hgone := hs.not_gone
  have hnot := h.not_joined hgone
  have hhistory := hs.history h
  have hjoined : s.joinable = true := by
    by_contra hj
    rw [Bool.not_eq_true] at hj
    cases hgone.symm.trans (h.absent hj).1
  constructor
  case order => exact h.order_of_history hhistory haccepted
  case foreign =>
    cases hs with
    | take hpc =>
      intro task htask
      have hmem : task ∈ s.privateQueue := htask
      rw [h.empty (waits_of_lock hpc)] at hmem
      cases hmem
    | _ => exact h.foreign
  case empty =>
    cases hs with
    | wait hpc => exact fun _ => h.empty (waits_of_lock hpc)
    | acquire hpc => exact fun _ => h.empty (by rw [hpc]; rfl)
    | again _ hqueue => exact fun _ => hqueue
    | _ =>
      intro hwaits
      cases hwaits
  case destroyed =>
    cases hs with
    | take hpc | wait hpc =>
      intro _
      exact h.destroyed (.inl (by rcases hpc with hpc | hpc <;> rw [hpc] <;> rfl))
    | acquire hpc | again hpc | pop _ _ hpc | run _ hpc | back hpc =>
      intro _
      exact h.destroyed (.inl (by rw [hpc]; rfl))
    | leave | finish =>
      rintro (hquits | hab)
      · cases hquits
      · exact h.destroyed (.inr hab)
    | drop _ _ hstored =>
      rintro (hquits | hab)
      · cases hquits
      · cases hab.symm.trans (h.stored hstored)
  case stored => cases hs <;> exact h.stored
  case absent =>
    intro hj
    cases (hjoinable.trans hjoined).symm.trans hj
  case aborted => rw [habort, hshutdown, h.aborted]
  case joined =>
    intro hj
    rw [hshutdown, hnot] at hj
    cases hj
  case moved =>
    intro hm
    rw [hshutdown, not_moved_of_not_joined hnot] at hm
    cases hm
  case inside =>
    rw [hinside, hjoinable]
    exact h.inside
  case wake =>
    cases hs with
    | wait _ hab hqueue =>
      -- the thread has just seen that there is nothing to do
      intro _
      refine ⟨fun hne => absurd hqueue hne, fun ha => ?_⟩
      cases hab.symm.trans ha
    | _ =>
      intro hpc
      cases hpc
  case asserts =>
    cases hs with
    | take hpc =>
      simp [check, h.empty (waits_of_lock hpc), h.asserts]
    | _ => exact h.asserts

/-! ### Calls of `enqueue` -/

variable {source : TaskSource}

theorem ofSource_append {l l' : List ((τ × TaskSource) × ℕ)} :
    ofSource source (l ++ l') = ofSource source l ++ ofSource source l' := List.filter_append ..

theorem ofSource_of_ne {source source' : TaskSource} {l : List ((τ × TaskSource) × ℕ)}
    (h : ∀ task ∈ l, task.1.2 = source') (hne : source' ≠ source) : ofSource source l = [] := by
  refine List.filter_eq_nil_iff.2 fun task htask => ?_
  rw [h task htask]
  simpa using hne

/-- Tasks that are put before others, when one of the two lists has no task of this source. -/
theorem ofSource_insert {l l' new : List ((τ × TaskSource) × ℕ)}
    (h : ofSource source new = [] ∨ ofSource source l' = []) :
    ofSource source (l ++ new ++ l') = ofSource source (l ++ l') ++ ofSource source new := by
  rw [ofSource_append, ofSource_append, ofSource_append]
  rcases h with h | h
  · rw [h, List.append_nil, List.append_nil]
  · rw [h, List.append_nil, List.append_nil]

variable {tasks : List τ}

theorem source_of_mem_stamp {task : (τ × TaskSource) × ℕ} (h : task ∈ s.stamp source tasks) :
    task.1.2 = source := by
  obtain ⟨x, -, hx⟩ := List.mem_map.1 (List.fst_mem_of_mem_zipIdx h)
  rw [← hx]

theorem zipIdx_accept :
    (s.accept source tasks).accepted.zipIdx = s.accepted.zipIdx ++ s.stamp source tasks := by
  simp [accept, stamp, List.zipIdx_append]

/-- The queue behind a call that is not refused. -/
def pushForeign (s : WorkerThreadExecutor τ) (tasks : List τ) : WorkerThreadExecutor τ :=
  { s.accept .enqueueForeign tasks with
    publicQueue := s.publicQueue ++ s.stamp .enqueueForeign tasks }

/-- The ways in which `enqueue_foreign` comes to the end of its critical section. -/
theorem enqueueForeign_cases (tasks : List τ) (available : Bool) :
    s.enqueueForeign tasks available = (s, .runtimeShutdown) ∨
    s.abort = false ∧ (
      s.joinable = true ∧ s.enqueueForeign tasks available =
        (s.pushForeign tasks, if s.publicQueue.isEmpty then .release else .returns) ∨
      s.joinable = false ∧ s.enqueueForeign tasks available =
        ({ s.pushForeign tasks with joinable := true, pc := .lock }, .returns) ∨
      s.joinable = false ∧
      s.enqueueForeign tasks available = (s.pushForeign tasks, .threadError)) := by
  unfold enqueueForeign
  cases habort : s.abort with
  | true => exact .inl rfl
  | false =>
    refine .inr ⟨rfl, ?_⟩
    cases hjoinable : s.joinable with
    | true => exact .inl ⟨rfl, rfl⟩
    | false =>
      cases available with
      | true => exact .inr (.inl ⟨rfl, rfl⟩)
      | false => exact .inr (.inr ⟨rfl, rfl⟩)

/-- Tasks are put at the end of the public queue of an executor that is not aborted.  Who finds it
empty goes on to release the semaphore. -/
theorem Ok.pushForeign {t : ℕ} {b : Bool} (h : s.Ok) (habort : s.abort = false)
    (hb : s.publicQueue = [] → s.joinable = true → b = true) (ht : s.releasing t = false) :
    Ok { s.pushForeign tasks with releasing := Function.update s.releasing t b } := by
  have hnot := h.not_joined_of_not_aborted habort
  refine { h with order := ?order, foreign := ?foreign, moved := ?moved, wake := ?wake }
  case order =>
    intro source
    change ofSource source (s.executed ++ s.destroyed ++ s.shutdown.held ++ s.pc.held ++
      s.privateQueue ++ (s.publicQueue ++ s.stamp .enqueueForeign tasks)) =
        ofSource source (s.accept _ tasks).accepted.zipIdx
    rw [zipIdx_accept, ← List.append_assoc, ofSource_append,
      ofSource_append (l := s.accepted.zipIdx)]
    exact congrArg (· ++ _) (h.order source)
  case foreign =>
    intro task htask
    rcases List.mem_append.1 htask with htask | htask
    · exact h.foreign task htask
    · exact source_of_mem_stamp htask
  case moved =>
    intro hm
    cases (not_moved_of_not_joined hnot).symm.trans hm
  case wake =>
    intro hpc
    obtain ⟨hqueue, ha⟩ := h.wake hpc
    refine ⟨fun _ => ?_, ha⟩
    have hjoinable : s.joinable = true := by
      by_contra hj
      exact ne_acquire_of_gone (h.absent (Bool.eq_false_iff.2 hj)).1 hpc
    by_cases hempty : s.publicQueue = []
    · exact .inr ⟨t, (Function.update_self ..).trans (hb hempty hjoinable)⟩
    · rcases hqueue hempty with hsem | ⟨k, hk⟩
      · exact .inl hsem
      · have hkt : k ≠ t := by
          rintro rfl
          cases ht.symm.trans hk
        exact .inr ⟨k, (Function.update_of_ne hkt ..).trans hk⟩

/-- The first call starts the thread. -/
theorem Ok.start (h : s.Ok) (habort : s.abort = false) (hjoinable : s.joinable = false) :
    Ok { s with joinable := true, pc := .lock } := by
  obtain ⟨-, habsent⟩ := h.absent hjoinable
  have hpc : s.pc = .absent := by
    have hisAbsent := habsent habort
    cases hpc : s.pc with
    | absent => rfl
    | _ =>
      rw [hpc] at hisAbsent
      cases hisAbsent
  have hnot := h.not_joined_of_not_aborted habort
  exact { h with
    order :=
      h.order_of_history (by simp [WorkerThreadExecutor.history, hpc, WorkerThreadPc.held]) rfl
    empty := fun _ => h.empty (by rw [hpc]; rfl)
    destroyed := fun _ => h.destroyed (.inr habort)
    absent := fun hj => Bool.noConfusion hj
    joined := fun hj => by cases hnot.symm.trans hj
    moved := fun hm => by cases (not_moved_of_not_joined hnot).symm.trans hm
    inside := fun _ => rfl
    wake := fun hlock => by cases hlock }

theorem Ok.enqueueForeign {available : Bool} {t : ℕ} (h : s.Ok) (ht : s.releasing t = false) :
    Ok { (s.enqueueForeign tasks available).1 with
      releasing :=
        Function.update s.releasing t ((s.enqueueForeign tasks available).2 = .release) } := by
  rcases enqueueForeign_cases (s := s) tasks available with
    hcase | ⟨habort, ⟨-, hcase⟩ | ⟨hjoinable, hcase⟩ | ⟨hjoinable, hcase⟩⟩
  · rw [hcase]
    have hsame :
        Function.update s.releasing t (decide (ForeignOutcome.runtimeShutdown = .release)) =
        s.releasing := Function.update_eq_self_iff.2 ht.symm
    rw [hsame]
    exact h
  · rw [hcase]
    refine h.pushForeign habort (fun hempty _ => ?_) ht
    simp [hempty]
  · rw [hcase]
    have hpush : Ok { s.pushForeign tasks with releasing := Function.update s.releasing t false } :=
      h.pushForeign habort (fun _ hj => by cases hjoinable.symm.trans hj) ht
    exact hpush.start habort hjoinable
  · rw [hcase]
    exact h.pushForeign habort (fun _ hj => by cases hjoinable.symm.trans hj) ht

/-- Tasks are put at the end of the private queue, before what is in the public one. -/
theorem Ok.enqueueLocal (h : s.Ok) (hpc : s.pc.userCode = true) : (s.enqueueLocal tasks).Ok := by
  unfold WorkerThreadExecutor.enqueueLocal
  split_ifs with habort
  · exact h
  have hwaits : s.pc.waits = false := by
    cases hp : s.pc with
    | running | callback | drain | popped | finished => rfl
    | _ =>
      rw [hp] at hpc
      cases hpc
  have hgone : s.pc.gone = false := by
    cases hp : s.pc with
    | running | callback | drain | popped | lock | acquire | relock => rfl
    | absent | finished =>
      rw [hp] at hpc
      cases hpc
  have hnot := h.not_joined hgone
  refine { h with order := ?order, empty := ?empty, moved := ?moved }
  case order =>
    intro source
    change ofSource source (s.executed ++ s.destroyed ++ s.shutdown.held ++ s.pc.held ++
      (s.privateQueue ++ s.stamp .enqueueLocal tasks) ++ s.publicQueue) =
        ofSource source (s.accept _ tasks).accepted.zipIdx
    rw [zipIdx_accept, ← List.append_assoc, ofSource_insert,
      ofSource_append (l := s.accepted.zipIdx)]
    · exact congrArg (· ++ _) (h.order source)
    -- one of the two lists has no task of this source
    cases source with
    | enqueueForeign =>
      exact .inl (ofSource_of_ne (fun _ htask => source_of_mem_stamp htask) TaskSource.noConfusion)
    | enqueueLocal => exact .inr (ofSource_of_ne h.foreign TaskSource.noConfusion)
  case empty =>
    intro hw
    cases hwaits.symm.trans hw
  case moved =>
    intro hm
    cases (not_moved_of_not_joined hnot).symm.trans hm

/-! ### Permits and `shutdown` -/

/-- Somebody releases the semaphore. -/
theorem Ok.release (h : s.Ok) (releasing : ℕ → Bool) :
    Ok { s with semaphore := s.semaphore + 1, releasing := releasing } :=
  { h with wake := fun _ => ⟨fun _ => .inl (Nat.succ_pos _), fun _ => .inl (Nat.succ_pos _)⟩ }

/-- What a step of `shutdown` can do. -/
inductive ShutdownStep (s : WorkerThreadExecutor τ) : WorkerThreadExecutor τ → Prop
  | begin (hpc : s.shutdown = .before) :
      ShutdownStep s { s with atomicAbort := true, shutdown := .lock }
  | abort (hpc : s.shutdown = .lock) : ShutdownStep s { s with abort := true, shutdown := .store }
  | store (hpc : s.shutdown = .store) :
      ShutdownStep s { s with privateAtomicAbort := true, shutdown := .release }
  | release (hpc : s.shutdown = .release) :
      ShutdownStep s { s with semaphore := s.semaphore + 1, shutdown := .join }
  | fail (hpc : s.shutdown = .join) : ShutdownStep s { s with shutdown := .failed }
  | join (hpc : s.shutdown = .join) (hinside : s.inside = false)
      (hfinished : s.pc.isFinished = true) :
      ShutdownStep s { s with joinable := false, shutdown := .move }
  | skip (hpc : s.shutdown = .join) (hjoinable : s.joinable = false) :
      ShutdownStep s { s with shutdown := .move }
  | move (hpc : s.shutdown = .move) : ShutdownStep s { s with
      privateQueue := []
      publicQueue := []
      shutdown := .clear (s.privateQueue ++ s.publicQueue) }
  | finish (hpc : s.shutdown = .clear []) : ShutdownStep s { s with shutdown := .done }
  | destroy (task : (τ × TaskSource) × ℕ) (rest : List ((τ × TaskSource) × ℕ))
      (hpc : s.shutdown = .clear (task :: rest)) :
      ShutdownStep s { s with destroyed := s.destroyed ++ [task], shutdown := .clear rest }

theorem shutdownStep_cases (hs : s.shutdownStep = some u) : ShutdownStep s u := by
  unfold WorkerThreadExecutor.shutdownStep at hs
  split at hs
  case h_1 hpc =>
    cases hs
    exact .begin hpc
  case h_2 hpc =>
    cases hs
    exact .abort hpc
  case h_3 hpc =>
    cases hs
    exact .store hpc
  case h_4 hpc =>
    cases hs
    exact .release hpc
  case h_5 hpc =>
    split_ifs at hs with hjoinable hinside hfinished <;> cases hs
    · exact .fail hpc
    · exact .join hpc (Bool.eq_false_iff.2 hinside) hfinished
    · exact .skip hpc (Bool.eq_false_iff.2 hjoinable)
  case h_6 hpc =>
    cases hs
    exact .move hpc
  case h_7 hpc =>
    cases hs
    exact .finish hpc
  case h_8 task rest hpc =>
    cases hs
    exact .destroy task rest hpc
  all_goals cases hs

/-- `shutdown` goes on, and the queues and `m_abort` stay as they are. -/
theorem Ok.gotoShutdown {pc pc' : WorkerThreadShutdownPc τ} (h : s.Ok) (hpc : s.shutdown = pc)
    (hheld : pc'.held = pc.held) (haborted : pc'.aborted = pc.aborted)
    (hreleases : pc.releases = true → 0 < s.semaphore ∨ pc'.releases = true)
    (hjoined : pc'.joined = true → s.pc.gone = true)
    (hmoved : pc'.moved = true → s.privateQueue = [] ∧ s.publicQueue = []) :
    Ok { s with shutdown := pc' } := by
  subst hpc
  exact { h with
    order := h.order_of_history (by simp only [WorkerThreadExecutor.history, hheld]) rfl
    aborted := h.aborted.trans haborted.symm
    joined := hjoined
    moved := hmoved
    wake := fun hpc => ⟨(h.wake hpc).1, fun ha => ((h.wake hpc).2 ha).elim .inl hreleases⟩ }

/-- The critical section that sets `m_abort`. -/
theorem Ok.shutdownAbort (h : s.Ok) (hpc : s.shutdown = .lock) :
    Ok { s with abort := true, shutdown := .store } :=
  { h with
    order := h.order_of_history
      (by simp only [WorkerThreadExecutor.history, hpc, WorkerThreadShutdownPc.held]) rfl
    destroyed := fun hor => h.destroyed (.inl (hor.resolve_right Bool.noConfusion))
    stored := fun _ => rfl
    absent := fun hj => ⟨(h.absent hj).1, fun ha => Bool.noConfusion ha⟩
    aborted := rfl
    joined := fun hj => Bool.noConfusion hj
    moved := fun hm => Bool.noConfusion hm
    wake := fun hacquire => ⟨(h.wake hacquire).1, fun _ => .inr rfl⟩ }

/-- The join, of a thread that has ended. -/
theorem Ok.shutdownJoin (h : s.Ok) (hpc : s.shutdown = .join) (hgone : s.pc.gone = true)
    (hinside : s.inside = false) : Ok { s with joinable := false, shutdown := .move } := by
  have hok : Ok { s with shutdown := .move } := h.gotoShutdown hpc rfl rfl (fun hr => by cases hr)
    (fun _ => hgone) fun hm => by cases hm
  exact { hok with
    absent := fun _ => ⟨hgone, fun ha => by cases hok.aborted.symm.trans ha⟩
    inside := fun hi => by cases hinside.symm.trans hi }

/-- The critical section that moves the queues out. -/
theorem Ok.shutdownMove (h : s.Ok) (hpc : s.shutdown = .move) : Ok { s with
    privateQueue := []
    publicQueue := []
    shutdown := .clear (s.privateQueue ++ s.publicQueue) } := by
  have hgone : s.pc.gone = true := h.joined (by rw [hpc]; rfl)
  exact { h with
    order := h.order_of_history (by
      simp [WorkerThreadExecutor.history, hpc, WorkerThreadShutdownPc.held, (held_of_gone hgone).1])
        rfl
    foreign := fun task htask => by cases htask
    empty := fun _ => rfl
    aborted := by
      have haborted := h.aborted
      rw [hpc] at haborted
      exact haborted
    joined := fun _ => hgone
    moved := fun _ => ⟨rfl, rfl⟩
    wake := fun hacquire => absurd hacquire (ne_acquire_of_gone hgone) }

/-- One task after another is destroyed. -/
theorem Ok.shutdownDestroy {task : (τ × TaskSource) × ℕ} {rest : List ((τ × TaskSource) × ℕ)}
    (h : s.Ok) (hpc : s.shutdown = .clear (task :: rest)) : Ok { s with
    destroyed := s.destroyed ++ [task]
    shutdown := .clear rest } := by
  have hgone : s.pc.gone = true := h.joined (by rw [hpc]; rfl)
  have haborted := h.aborted
  rw [hpc] at haborted
  exact { h with
    order := h.order_of_history
      (by simp [WorkerThreadExecutor.history, hpc, WorkerThreadShutdownPc.held]) rfl
    destroyed := by
      rintro (hquits | habort)
      · cases (held_of_gone hgone).2.symm.trans hquits
      · cases haborted.symm.trans habort
    aborted := haborted
    joined := fun _ => hgone
    moved := fun _ => h.moved (by rw [hpc]; rfl)
    wake := fun hacquire => absurd hacquire (ne_acquire_of_gone hgone) }

theorem Ok.shutdownStep (h : s.Ok) (hs : ShutdownStep s u) : u.Ok := by
  cases hs with
  | begin hpc =>
    have hok : Ok { s with shutdown := .lock } := h.gotoShutdown hpc rfl rfl
      (fun hr => by cases hr) (fun hj => by cases hj) fun hm => by cases hm
    exact { hok with }
  | abort hpc => exact h.shutdownAbort hpc
  | store hpc =>
    have hok : Ok { s with shutdown := .release } := h.gotoShutdown hpc rfl rfl
      (fun _ => .inr rfl) (fun hj => by cases hj) fun hm => by cases hm
    exact { hok with stored := fun _ => hok.aborted }
  | release hpc =>
    exact (h.release s.releasing).gotoShutdown hpc rfl rfl (fun _ => .inl (Nat.succ_pos _))
      (fun hj => by cases hj) fun hm => by cases hm
  | fail hpc =>
    exact h.gotoShutdown hpc rfl rfl (fun hr => by cases hr) (fun hj => by cases hj)
      fun hm => by cases hm
  | join hpc hinside hfinished =>
    refine h.shutdownJoin hpc ?_ hinside
    rw [WorkerThreadPc.gone, hfinished, Bool.or_true]
  | skip hpc hjoinable =>
    exact h.gotoShutdown hpc rfl rfl (fun hr => by cases hr) (fun _ => (h.absent hjoinable).1)
      fun hm => by cases hm
  | move hpc => exact h.shutdownMove hpc
  | finish hpc =>
    exact h.gotoShutdown hpc rfl rfl (fun hr => by cases hr)
      (fun _ => h.joined (by rw [hpc]; rfl)) fun _ => h.moved (by rw [hpc]; rfl)
  | destroy _ _ hpc => exact h.shutdownDestroy hpc

theorem Ok.shutdownLocal (h : s.Ok) (hpc : s.pc.userCode = true) (hbefore : s.shutdown = .before) :
    Ok { s with
      atomicAbort := true
      shutdown := .lock
      inside := true } := by
  have hok : Ok { s with shutdown := .lock } := h.gotoShutdown hbefore rfl rfl
    (fun hr => by cases hr) (fun hj => by cases hj) fun hm => by cases hm
  refine { hok with inside := fun _ => ?_ }
  by_contra hj
  have hgone := (h.absent (Bool.eq_false_iff.2 hj)).1
  cases hp : s.pc with
  | running | callback =>
    rw [hp] at hgone
    cases hgone
  | _ =>
    rw [hp] at hpc
    cases hpc

/-! ### Whole runs -/

/-- `shutdown` begins with the exchange on `m_atomic_abort`. -/
def Begun (s : WorkerThreadExecutor τ) : Prop := s.atomicAbort = false → s.shutdown = .before

theorem ShutdownStep.begun (hs : ShutdownStep s u) (h : s.Begun) : u.Begun := by
  intro hu
  cases hs with
  | begin => cases hu
  | abort hpc | store hpc | release hpc | fail hpc | join hpc | skip hpc | move hpc | finish hpc
    | destroy _ _ hpc => cases hpc.symm.trans (h hu)

theorem ThreadStep.begun (hs : ThreadStep s u) (h : s.Begun) : u.Begun := by
  cases hs <;> exact h

theorem Ok.step {m : WorkerThreadMove τ} (h : s.Ok) (hb : s.Begun) (hs : s.step m = some u) :
    u.Ok ∧ u.Begun := by
  cases m <;> simp only [WorkerThreadExecutor.step] at hs
  case enqueue _ tasks available =>
    split_ifs at hs with ht
    cases hs
    refine ⟨h.enqueueForeign (Bool.eq_false_iff.2 ht), ?_⟩
    rcases enqueueForeign_cases (s := s) tasks available with
      hcase | ⟨-, ⟨-, hcase⟩ | ⟨-, hcase⟩ | ⟨-, hcase⟩⟩ <;> rw [hcase] <;> exact hb
  case release =>
    split_ifs at hs
    cases hs
    exact ⟨h.release _, hb⟩
  case thread =>
    split_ifs at hs
    have hthread := threadStep_cases hs
    exact ⟨h.threadStep hthread, hthread.begun hb⟩
  case enqueueLocal =>
    split_ifs at hs with hcond
    cases hs
    refine ⟨h.enqueueLocal hcond.1, ?_⟩
    unfold WorkerThreadExecutor.enqueueLocal
    split_ifs <;> exact hb
  case shutdownLocal =>
    split_ifs at hs with hcond
    cases hs
    exact ⟨h.shutdownLocal hcond.1 (hb hcond.2), fun hu => by cases hu⟩
  case shutdown =>
    have hshutdown := shutdownStep_cases hs
    exact ⟨h.shutdownStep hshutdown, hshutdown.begun hb⟩

theorem ok_of_reachable (h : s.Reachable) : s.Ok ∧ s.Begun := by
  induction h with
  | start hs =>
    obtain rfl := hs
    exact ⟨Ok.initial, fun _ => rfl⟩
  | next _ _ hstep ih => exact ih.1.step ih.2 hstep

/-- Every accepted task is somewhere, and only there. -/
theorem Ok.perm (h : s.Ok) : s.history.Perm s.accepted.zipIdx := by
  have hsplit : ∀ l : List ((τ × TaskSource) × ℕ),
      (ofSource .enqueueForeign l ++ ofSource .enqueueLocal l).Perm l := by
    intro l
    have hother : ofSource .enqueueLocal l =
        l.filter fun task => !decide (task.1.2 = TaskSource.enqueueForeign) := by
      refine List.filter_congr fun task _ => ?_
      cases task.1.2 <;> rfl
    rw [hother]
    exact List.filter_append_perm ..
  have hhistory := hsplit s.history
  rw [h.order, h.order] at hhistory
  exact hhistory.symm.trans (hsplit _)

/-- When `shutdown` has returned, nothing is left but what has been executed or destroyed. -/
theorem Ok.history_of_done (h : s.Ok) (hdone : s.shutdown = .done) :
    s.history = s.executed ++ s.destroyed := by
  have hgone : s.pc.gone = true := h.joined (by rw [hdone]; rfl)
  obtain ⟨hprivate, hpublic⟩ := h.moved (by rw [hdone]; rfl)
  simp [history, hdone, WorkerThreadShutdownPc.held, (held_of_gone hgone).1, hprivate, hpublic]

/-- **Every task is delivered, once and in order.**  In every state of a worker thread executor with
any foreign threads, tasks that enqueue and one `shutdown` at any point (a further call finds
`m_atomic_abort` set and returns at once, perhaps before the first; it is no step here):

* a thread that is blocked in `m_semaphore.acquire()`, while nobody is between a critical section
  and the release behind it, has nothing to do;
* a task is executed or destroyed at most once, and never both; only accepted tasks are, and all of
  them when `shutdown` has returned;
* the tasks of `enqueue_foreign`, and those of `enqueue_local`, begin to run in the order in which
  they have been accepted. -/
theorem tasks_delivered_once (h : s.Reachable) :
    (s.pc = .acquire → s.semaphore = 0 → (∀ t, s.releasing t = false) →
      s.shutdown.releases = false → s.publicQueue = [] ∧ s.abort = false) ∧
    (s.executed ++ s.destroyed).Nodup ∧
    (∀ task ∈ s.executed ++ s.destroyed, task ∈ s.accepted.zipIdx) ∧
    (s.shutdown = .done → ∀ task ∈ s.accepted.zipIdx, task ∈ s.executed ++ s.destroyed) ∧
    ∀ source, ofSource source s.executed <+: ofSource source s.accepted.zipIdx := by
  obtain ⟨hok, -⟩ := ok_of_reachable h
  have hstart : s.executed ++ s.destroyed <+: s.history := by
    unfold history
    simp only [List.append_assoc]
    exact ⟨_, List.append_assoc ..⟩
  have hnodup : s.accepted.zipIdx.Nodup := by
    refine List.Nodup.of_map Prod.snd ?_
    rw [List.zipIdx_map_snd]
    exact List.nodup_range'
  refine ⟨fun hpc hsem hrel hshut => ⟨?_, ?_⟩, ?_, ?_, fun hdone task htask => ?_, fun source => ?_⟩
  · by_contra hqueue
    rcases (hok.wake hpc).1 hqueue with hpos | ⟨t, ht⟩
    · omega
    · cases (hrel t).symm.trans ht
  · by_contra habort
    rcases (hok.wake hpc).2 (Bool.eq_true_of_not_eq_false habort) with hpos | hreleases
    · omega
    · cases hshut.symm.trans hreleases
  · exact hstart.sublist.nodup (hok.perm.nodup_iff.2 hnodup)
  · exact fun task htask => hok.perm.mem_iff.1 (hstart.subset htask)
  · rw [← hok.history_of_done hdone]
    exact hok.perm.mem_iff.2 htask
  · rw [← hok.order source]
    refine List.IsPrefix.filter _ ((List.prefix_append _ _).trans hstart)

/-- A task enqueues another one while a foreign thread adds to the public queue; then the executor
is shut down, and the thread destroys the task that it has just taken out. -/
def deliverySchedule : List (WorkerThreadMove ℕ) :=
  [.enqueue 0 [10, 11] true, .thread, .thread, .thread, .enqueueLocal [20], .enqueue 0 [12] true,
    .release 0, .thread, .thread, .thread, .shutdown, .shutdown, .shutdown, .thread, .thread,
    .shutdown, .thread, .thread, .shutdown, .shutdown, .shutdown, .shutdown]

theorem tasks_delivered_once_of_abort :
    ∃ s : WorkerThreadExecutor ℕ, s.Reachable ∧ s.shutdown = .done ∧
      s.executed = [((10, .enqueueForeign), 0), ((11, .enqueueForeign), 1)] ∧
      s.accepted.length = 4 ∧ (∀ task ∈ s.accepted.zipIdx, task ∈ s.executed ++ s.destroyed) := by
  have h : Reachable _ := .lastState (by rfl) deliverySchedule
  have hdone : (Interleaving.lastState step initial deliverySchedule).shutdown = .done := by
    decide +kernel
  obtain ⟨-, -, -, hall, -⟩ := tasks_delivered_once h
  exact ⟨_, h, hdone, by decide +kernel, by decide +kernel, hall hdone⟩

end WorkerThreadExecutor
end Concurrencpp
