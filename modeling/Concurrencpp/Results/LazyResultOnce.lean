import Concurrencpp.Results.LazyResultSteps

/-!
# A lazy task runs once and is destroyed once

* `Core.step`: `Core` along every run in which no awaitable is destroyed during a `co_await` of it
  and none is awaited twice.
* `Core.begins`: only a `co_await` begins a body.
* `TasksOk`: what holds of the tasks, their callers and their frames in every such state;
  `lazy_tasks_run_once` is the result, and `awaited_twice` a run in which two coroutines await the
  same awaitable.
-/

namespace Concurrencpp
namespace LazyResults

variable {α ε : Type} {moved : α → α} {s t : LazyResults α ε} {o : LazyObject} {a c f : ℕ}

theorem Core.step {m : LazyMove α ε} (h : Core s) (hm : s.Admissible m)
    (hs : s.step moved m = some t) : Core t := by
  cases m with
  | create i => exact h.create (plain_result i) hs
  | construct i =>
    have hs : (if s.alive (.result i) = false then some (s.begin (.result i)) else none) = some t :=
      hs
    split_ifs at hs with hdead
    cases hs
    exact h.construct (plain_result i) hdead
  | moveConstruct i rhs => exact h.moveConstruct (plain_result i) (plain_result rhs) hs
  | moveAssign i rhs => exact h.moveAssign (plain_result i) (plain_result rhs) hs
  | destroyResult i => exact h.destroyResult (plain_result i) hs
  | status =>
    rw [h.statusStep hs]
    exact h
  | operatorCoAwait i | resolve i => exact h.makeAwaitable (plain_result i) hs
  | await => exact h.await hm.2 hs
  | awaitResume =>
    obtain ⟨⟨p, u⟩, hu, rfl⟩ := Option.map_eq_some_iff.1 hs
    exact h.awaitResume hu
  | resolveResume _ i => exact h.resolveResume (plain_result i) hs
  | destroyAwaitable => exact h.destroyAwaitable hm.1 hs
  | run i self => exact h.run (plain_result i) (plain_result self) hs
  | body => exact h.bodyStep hs

theorem core_of_reach (h : Interleaving.Reach (step moved) IsInitial Admissible s) : Core s := by
  induction h with
  | start hs =>
    cases hs
    exact core_initial
  | next _ hm hs ih => exact ih.step hm hs

/-! ### What begins a body -/

/-- No body begins. -/
def StartsKept (s t : LazyResults α ε) : Prop :=
  ∀ f frame frame', s.frames f = some frame → t.frames f = some frame' →
    frame'.starts = frame.starts

theorem StartsKept.of_eq (h : t.frames = s.frames) : StartsKept s t := by
  intro f frame frame' hf hf'
  rw [h, hf] at hf'
  cases hf'
  rfl

theorem StartsKept.of_update {new : LazyFrame α ε}
    (h : t.frames = Function.update s.frames f (some new))
    (hnew : ∀ frame, s.frames f = some frame → new.starts = frame.starts) : StartsKept s t := by
  intro g frame frame' hg hg'
  rw [h] at hg'
  by_cases hgf : g = f
  · subst hgf
    rw [Function.update_self] at hg'
    cases hg'
    exact hnew frame hg
  · rw [Function.update_of_ne hgf, hg] at hg'
    cases hg'
    rfl

theorem startsKept_destroyState (s : LazyResults α ε) (o : LazyObject) :
    StartsKept s (s.destroyState o) := by
  unfold destroyState
  split
  · exact .of_eq rfl
  next f _ =>
    unfold destroy
    split
    · exact .of_eq rfl
    next frame hframe =>
      refine .of_update rfl fun frame' hframe' => ?_
      cases hframe.symm.trans hframe'
      rfl

theorem startsKept_awaitResume {p : ProducerContext α ε} (h : Core s)
    (hs : s.awaitResume moved c = some (p, t)) : StartsKept s t := by
  unfold LazyResults.awaitResume at hs
  split at hs
  case h_2 => cases hs
  next a hc =>
  split_ifs at hs
  obtain ⟨n, f, frame, -, -, hm, hframe, hd, -⟩ := h.resuming hc
  have hleave : (s.leave c a).frames f = some frame := hframe
  simp only [hm, LazyResults.get, hleave, use_of_live hleave hd] at hs
  cases hs
  refine .of_update rfl fun frame' hframe' => ?_
  cases hframe.symm.trans hframe'
  rfl

theorem resumeCaller_frames (s : LazyResults α ε) (caller : Option ℕ) :
    (s.resumeCaller caller).frames = s.frames := by
  unfold resumeCaller
  split
  · rfl
  · split
    · rfl
    · rfl

theorem startsKept_bodyStep {event : BodyEvent α ε} (hs : s.bodyStep f event = some t) :
    StartsKept s t := by
  unfold LazyResults.bodyStep at hs
  split at hs
  case h_1 => cases hs
  next frame hframe =>
  have hsame : ∀ {new : LazyFrame α ε}, new.starts = frame.starts →
      ∀ frame', s.frames f = some frame' → new.starts = frame'.starts := by
    intro new hnew frame' hframe'
    cases hframe.symm.trans hframe'
    exact hnew
  split_ifs at hs
  split at hs
  · cases hs
    exact .of_update rfl (hsame rfl)
  · cases hs
    exact .of_update rfl (hsame rfl)
  · cases hs
    exact .of_update (resumeCaller_frames ..) (hsame rfl)
  · cases hs
    exact .of_update (resumeCaller_frames ..) (hsame rfl)
  · cases hs

/-- The first `co_await` begins the body of the frame it holds when that has not begun. -/
theorem Core.await_starts (h : Core s) (hfirst : (s.awaits a).awaits = 0)
    (hs : s.await c a = some t) {frame frame' : LazyFrame α ε} (hframe : s.frames f = some frame)
    (hframe' : t.frames f = some frame') (hne : frame'.starts ≠ frame.starts) :
    frame.point = .initial ∧ s.mState (.awaitable a) = some f := by
  have hcond := await_cond hs
  obtain ⟨-, fr, hbind, hrests⟩ := (h.awaitableAt hcond.2).of_unawaited hfirst
  obtain ⟨g, hm, hfr⟩ := Option.bind_eq_some_iff.1 hbind
  obtain ⟨fr', hfr', hd⟩ := h.frame_of_handle hm
  cases hfr.symm.trans hfr'
  rw [await_eq hcond.1 hcond.2 hm hfr hd] at hs
  cases hs
  rcases hrests with hfresh | hstored
  · by_cases hgf : f = g
    · subst hgf
      cases hframe.symm.trans hfr
      exact ⟨hfresh.point, hm⟩
    · -- another frame is not touched
      refine absurd ?_ hne
      have hpoint : fr.point ≠ .finished := by
        intro hp
        cases hp.symm.trans hfresh.point
      rw [if_neg hpoint] at hframe'
      have hother : s.frames f = some frame' := (Function.update_of_ne hgf _ _).symm.trans hframe'
      cases hframe.symm.trans hother
      rfl
  · rw [if_pos hstored.point] at hframe'
    cases hframe.symm.trans hframe'
    exact absurd rfl hne

/-- **A body begins only in a `co_await` of the awaitable that holds its frame**, and only when it
has not begun before. -/
theorem Core.begins {m : LazyMove α ε} (h : Core s) (hm : s.Admissible m)
    (hs : s.step moved m = some t) {frame frame' : LazyFrame α ε} (hframe : s.frames f = some frame)
    (hframe' : t.frames f = some frame') (hne : frame'.starts ≠ frame.starts) :
    frame.point = .initial ∧ ∃ c a, m = .await c a ∧ s.mState (.awaitable a) = some f := by
  have hkept : ¬ StartsKept s t := fun hkept => hne (hkept f frame frame' hframe hframe')
  cases m with
  | create i f' =>
    have hs : s.create (.result i) f' = some t := hs
    unfold LazyResults.create at hs
    split_ifs at hs with hcond
    cases hs
    refine absurd (.of_update rfl fun fr hfr => ?_) hkept
    cases hcond.2.symm.trans hfr
  | status =>
    rw [h.statusStep hs] at hkept
    exact absurd (.of_eq rfl) hkept
  | await c a =>
    obtain ⟨hp, hstate⟩ := h.await_starts hm.2 hs hframe hframe' hne
    exact ⟨hp, c, a, rfl, hstate⟩
  | awaitResume =>
    obtain ⟨⟨p, u⟩, hu, rfl⟩ := Option.map_eq_some_iff.1 hs
    exact absurd (startsKept_awaitResume h hu) hkept
  | body => exact absurd (startsKept_bodyStep hs) hkept
  | _ =>
    -- the operations that move handles do not touch a frame, but for those that destroy one
    refine absurd ?_ hkept
    simp only [LazyResults.step, LazyResults.moveConstruct, LazyResults.moveAssign,
      LazyResults.destroyResult, LazyResults.operatorCoAwait, LazyResults.resolve,
      LazyResults.makeAwaitable, LazyResults.resolveResume, LazyResults.destroyAwaitable,
      LazyResults.run] at hs
    repeat' split at hs
    all_goals cases hs
    all_goals first | exact .of_eq rfl | exact startsKept_destroyState s _

/-! ### The tasks -/

/-- What holds of the lazy tasks, of the coroutines that await them and of their frames. -/
structure TasksOk (moved : α → α) (s : LazyResults α ε) : Prop where
  /-- A body begins once. -/
  starts : ∀ f frame, s.frames f = some frame →
    frame.starts = if frame.point = .initial then 0 else 1
  /-- Only a `co_await` of the awaitable with its frame begins it. -/
  begins : ∀ m t f frame frame', s.Admissible m → s.step moved m = some t →
    s.frames f = some frame → t.frames f = some frame' → frame'.starts ≠ frame.starts →
      frame.point = .initial ∧ ∃ c a, m = .await c a ∧ s.mState (.awaitable a) = some f
  /-- A `co_await` of a task that has ended resumes no body. -/
  ready : ∀ c a t f frame, s.step moved (.await c a) = some t → s.mState (.awaitable a) = some f →
    s.frames f = some frame → frame.point = .finished →
      t.frames = s.frames ∧ t.callers c = .resuming a
  /-- A coroutine is suspended only while the body it waits for has not ended, and that body will
  resume it. -/
  suspended : ∀ c a, s.callers c = .suspended a → (s.awaits a).resumes = 0 ∧
    ∃ f frame, s.mState (.awaitable a) = some f ∧ s.frames f = some frame ∧
      (frame.point = .running ∨ frame.point = .suspended) ∧ frame.callerHandle = some c
  /-- A coroutine that has suspended and is not suspended any more has been resumed once. -/
  resumed : ∀ a, s.alive (.awaitable a) = true → (s.awaits a).suspends ≤ 1 ∧
    ((s.awaits a).resumes = (s.awaits a).suspends ∨ ∃ c, s.callers c = .suspended a)
  /-- It has been resumed only when the body has ended. -/
  afterwards : ∀ a f frame, s.alive (.awaitable a) = true → s.mState (.awaitable a) = some f →
    s.frames f = some frame → frame.point ≠ .finished → (s.awaits a).resumes = 0
  /-- `await_resume` gives what the body has ended with. -/
  delivers : ∀ c a, s.callers c = .resuming a → (s.awaits a).kind = .await →
    ∃ f frame p t, s.mState (.awaitable a) = some f ∧ s.frames f = some frame ∧
      frame.outcome = some p ∧ s.awaitResume moved c = some (p, t)
  delivered : ∀ d ∈ s.deliveries, ∃ frame, s.frames d.frame = some frame ∧ frame.point = .finished ∧
    frame.outcome = some d.outcome
  /-- A `lazy_result` with a task that has ended still has its outcome. -/
  stored : ∀ i f frame, s.mState (.result i) = some f → s.frames f = some frame →
    frame.point = .finished → frame.outcome = some frame.producer
  /-- A frame has one owner until it is destroyed, and is destroyed once, when it has no owner any
  more. -/
  destroyed : ∀ f frame, s.frames f = some frame →
    (frame.destroys = 0 ∧ ∃! o, s.mState o = some f) ∨
      (frame.destroys = 1 ∧ ∀ o, s.mState o ≠ some f)
  failed : s.failed = false

theorem Core.ready (h : Core s) (hs : s.await c a = some t) (hm : s.mState (.awaitable a) = some f)
    {frame : LazyFrame α ε} (hframe : s.frames f = some frame) (hpoint : frame.point = .finished) :
    t.frames = s.frames ∧ t.callers c = .resuming a := by
  obtain ⟨frame', hframe', hd⟩ := h.frame_of_handle hm
  cases hframe.symm.trans hframe'
  have hcond := await_cond hs
  rw [await_eq hcond.1 hcond.2 hm hframe hd, if_pos hpoint] at hs
  cases hs
  exact ⟨rfl, Function.update_self ..⟩

theorem Core.suspended (h : Core s) (hc : s.callers c = .suspended a) :
    (s.awaits a).resumes = 0 ∧ ∃ f frame, s.mState (.awaitable a) = some f ∧
      s.frames f = some frame ∧ frame.IsBegun c := by
  obtain ⟨halive, hawaiter⟩ := h.callers c a (.inl hc)
  have hpc : (s.awaits a).awaiter.map s.callers = some (.suspended a) := by
    rw [hawaiter]
    exact congrArg some hc
  obtain ⟨-, kind, c', frame, hrecord, hbind, hbegun⟩ := (h.awaitableAt halive).of_suspended hpc
  obtain ⟨f, hm, hframe⟩ := Option.bind_eq_some_iff.1 hbind
  rw [hrecord] at hawaiter
  cases hawaiter
  exact ⟨by rw [hrecord], f, frame, hm, hframe, hbegun⟩

theorem Core.delivers (moved : α → α) (h : Core s) (hc : s.callers c = .resuming a)
    (hkind : (s.awaits a).kind = .await) :
    ∃ f frame p t, s.mState (.awaitable a) = some f ∧ s.frames f = some frame ∧
      frame.outcome = some p ∧ s.awaitResume moved c = some (p, t) := by
  obtain ⟨n, f, frame, -, -, hm, hframe, hd, hstored⟩ := h.resuming hc
  have hleave : (s.leave c a).frames f = some frame := hframe
  have hget : ∃ t, s.awaitResume moved c = some (frame.producer, t) := by
    simp only [LazyResults.awaitResume, hc, hkind, if_true, hm, LazyResults.get, hleave]
    exact ⟨_, rfl⟩
  obtain ⟨t, ht⟩ := hget
  exact ⟨f, frame, frame.producer, t, hm, hframe, hstored.producer, ht⟩

theorem Core.destroyed (h : Core s) {frame : LazyFrame α ε} (hframe : s.frames f = some frame) :
    (frame.destroys = 0 ∧ ∃! o, s.mState o = some f) ∨
      (frame.destroys = 1 ∧ ∀ o, s.mState o ≠ some f) := by
  have hdestroys : s.destroys f = some frame.destroys :=
    congrArg (Option.map LazyFrame.destroys) hframe
  have hle := h.handles.destroyed f frame.destroys hdestroys
  by_cases hzero : frame.destroys = 0
  · obtain ⟨o, ho⟩ := (h.handles.owned f).2 (hdestroys.trans (congrArg some hzero))
    have hm : s.mState o = some f := Handles.mem_heldFrames.1 ho
    exact .inl ⟨hzero, o, hm, fun p hp => h.handles.unique hp hm⟩
  · refine .inr ⟨by omega, fun o ho => hzero ?_⟩
    exact Option.some.inj (hdestroys.symm.trans (h.handles.live ho))

/-- **A lazy task runs at most once, and its frame is destroyed once.**  This holds after every
sequence of operations in which no awaitable is destroyed during a `co_await` of it and none is
awaited twice. -/
theorem lazy_tasks_run_once (h : Interleaving.Reach (step moved) IsInitial Admissible s) :
    s.TasksOk moved := by
  have hcore := core_of_reach h
  constructor
  case starts => exact fun f frame hf => (hcore.sound f frame hf).starts
  case begins => exact fun m t f frame frame' hm hs hf hf' hne => hcore.begins hm hs hf hf' hne
  case ready => exact fun c a t f frame hs hm hf hp => hcore.ready hs hm hf hp
  case suspended =>
    intro c a hc
    obtain ⟨hresumes, f, frame, hm, hframe, hbegun⟩ := hcore.suspended hc
    exact ⟨hresumes, f, frame, hm, hframe, hbegun.point, hbegun.callerHandle⟩
  case resumed =>
    intro a halive
    obtain ⟨hle, heq, -⟩ := (hcore.awaitableAt halive).resumed
    refine ⟨hle, heq.imp id fun hpc => ?_⟩
    obtain ⟨c, -, hc⟩ := Option.map_eq_some_iff.1 hpc
    exact ⟨c, hc⟩
  case afterwards =>
    intro a f frame halive hm hframe hpoint
    exact (hcore.awaitableAt halive).resumed.2.2 frame (bind_frames hm hframe) hpoint
  case delivers => exact fun c a hc hkind => hcore.delivers moved hc hkind
  case delivered =>
    intro d hd
    obtain ⟨frame, hframe, hp⟩ := hcore.delivered d hd
    exact ⟨frame, hframe, (hcore.sound _ _ hframe).finished_of_outcome hp, hp⟩
  case stored =>
    intro i f frame hm hframe hpoint
    rcases hcore.rests (plain_result i) hm hframe with hfresh | hstored
    · cases hpoint.symm.trans hfresh.point
    · exact hstored.producer
  case destroyed => exact fun f frame hf => hcore.destroyed hf
  case failed => exact hcore.failed

/-- A task is resolved by a coroutine, with a suspension in its body; then `run` on the result of
that takes the stored value, without another start, and destroys the frame. -/
theorem lazy_tasks_run_once_of_resolve : ∃ s : LazyResults ℕ String,
    Interleaving.Reach (step fun _ => 0) IsInitial Admissible s ∧
      (s.frames 0).map (fun frame => (frame.starts, frame.destroys)) = some (1, 1) ∧
      s.deliveries = [⟨0, 1, .value 7⟩] ∧ s.TasksOk fun _ => 0 := by
  let schedule : List (LazyMove ℕ String) :=
    [.create 0 0, .resolve 0 0, .await 0 0, .body 0 .suspend, .body 0 .resume,
      .body 0 (.returnValue 7), .resolveResume 0 1, .destroyAwaitable 0, .status 1] ++
      runImpl 1 2 0 1
  have h : Interleaving.Reach (step fun _ => 0) IsInitial Admissible _ :=
    .lastState (by rfl) schedule
  exact ⟨_, h, by decide +kernel, by decide +kernel, lazy_tasks_run_once h⟩

/-- Two coroutines await the same awaitable.  The second `co_await` finds the body suspended in the
middle, jumps into it again and overwrites the handle of the first coroutine, which is not resumed
when the body has ended. -/
theorem awaited_twice : ∃ s : LazyResults ℕ String,
    Interleaving.Reach (step fun _ => 0) IsInitial KeepsConsumers s ∧
      (s.frames 0).map (fun frame => (frame.starts, frame.point)) = some (2, .finished) ∧
      s.callers 0 = .suspended 0 := by
  let schedule : List (LazyMove ℕ String) := [.create 0 0, .operatorCoAwait 0 0, .await 0 0,
    .body 0 .suspend, .await 1 0, .body 0 (.returnValue 7), .awaitResume 1]
  exact ⟨_, .lastState (by rfl) schedule, by decide +kernel⟩

end LazyResults
end Concurrencpp
