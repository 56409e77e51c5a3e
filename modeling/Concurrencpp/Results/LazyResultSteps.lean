import Concurrencpp.Results.LazyResultOwner

/-!
# The operations on lazy results keep the frames in order

One lemma for each operation: `Core` holds behind it.

* `Core.create`, `Core.moveConstruct`, `Core.destroyResult`, `Core.makeAwaitable`,
  `Core.destroyAwaitable`: handles are made, handed on and destroyed;
* `Core.await`, `Core.awaitResume`, `Core.resolveResume`: the parts of a `co_await`;
* `Core.bodyStep`: the body runs, and its end resumes the one coroutine that waits for it.
-/

namespace Concurrencpp
namespace LazyResults

open Function (update update_eq_self update_self update_of_ne update_idem update_eq_self_iff)

variable {α ε : Type} {s t : LazyResults α ε} {o rhs : LazyObject} {a c f : ℕ}
  {frame : LazyFrame α ε}

/-- A `lazy_result`, not an awaitable. -/
def Plain (o : LazyObject) : Prop := ∀ a, o ≠ .awaitable a

theorem plain_result (i : ℕ) : Plain (.result i) := by
  intro a h
  cases h

theorem ObjectOk.of_plain (ho : Plain o)
    (h : ∀ f frame, s.mState o = some f → s.frames f = some frame → frame.Rests) :
    s.ObjectOk o := by
  cases o with
  | result => exact h
  | awaitable a => exact absurd rfl (ho a)

theorem ObjectOk.of_null (ho : Plain o) (h : s.mState o = none) : s.ObjectOk o := by
  refine .of_plain ho fun f frame hf => ?_
  cases h.symm.trans hf

theorem check_true (s : LazyResults α ε) : s.check true = s := by
  unfold check
  rw [Bool.not_true, Bool.or_false]

theorem use_of_live (hf : s.frames f = some frame) (hd : frame.destroys = 0) : s.use f = s := by
  simp only [use, hf, hd, decide_true, check_true]

theorem destroy_of_live (hf : s.frames f = some frame) (hd : frame.destroys = 0)
    (hp : frame.point ≠ .running) : s.destroy f = s.setFrame f frame.destroyed := by
  have hcond : decide (frame.destroys = 0 ∧ frame.point ≠ .running) = true :=
    decide_eq_true ⟨hd, hp⟩
  simp only [destroy, hf, hcond, check_true]
  rfl

theorem destroys_setFrame (s : LazyResults α ε) (f : ℕ) (frame : LazyFrame α ε) :
    (s.setFrame f frame).destroys = update s.destroys f (some frame.destroys) :=
  Function.comp_update (Option.map LazyFrame.destroys) s.frames f (some frame)

/-- A change of a frame that does not destroy it. -/
theorem destroys_setFrame_of_eq {frame' : LazyFrame α ε} (hframe : s.frames f = some frame)
    (heq : frame'.destroys = frame.destroys) : (s.setFrame f frame').destroys = s.destroys := by
  refine (destroys_setFrame s f frame').trans (update_eq_self_iff.2 ?_)
  rw [heq]
  exact (congrArg (Option.map LazyFrame.destroys) hframe).symm

/-- The frame of one object is not that of another. -/
theorem Core.frames_of_notMem (h : Core s) (hm : s.mState o = some f) (fr : Option (LazyFrame α ε))
    (p : LazyObject) (hp : p ∉ [o]) (g : ℕ) (hg : s.mState p = some g) :
    update s.frames f fr g = s.frames g := by
  refine update_of_ne ?_ _ _
  rintro rfl
  exact (List.ne_of_not_mem_cons hp) (h.handles.unique hg hm)

theorem update_awaits_of_notMem {os : List LazyObject} (ha : .awaitable a ∈ os) (r : AwaitRecord)
    (b : ℕ) (hb : .awaitable b ∉ os) : update s.awaits a r b = s.awaits b := by
  refine update_of_ne ?_ _ _
  rintro rfl
  exact hb ha

theorem update_callers_of_notMem (pc : CallerPc) (c' : ℕ) (hc : c' ∉ [c]) :
    update s.callers c pc c' = s.callers c' :=
  update_of_ne (List.ne_of_not_mem_cons hc) _ _

/-! ### Lifetimes and handles -/

/-- No coroutine is in a `co_await` of an object that is not an awaitable. -/
theorem in_plain {os : List LazyObject} (hos : ∀ o ∈ os, Plain o) (c a : ℕ)
    (_ : s.callers c = .suspended a ∨ s.callers c = .resuming a) :
    c ∈ ([] : List ℕ) ↔ LazyObject.awaitable a ∈ os :=
  ⟨fun h => absurd h List.not_mem_nil, fun h => absurd rfl (hos _ h a)⟩

/-- The lifetime of an object begins, with a null handle. -/
theorem Core.handles_begin (h : Core s) (hdead : s.alive o = false) :
    Handles (update s.alive o true) s.mState s.destroys := by
  refine h.handles.mono fun p hp => ?_
  by_cases hpo : p = o
  · rw [hpo]
    exact hdead
  · exact (update_of_ne hpo _ _).symm.trans hp

theorem Core.construct (h : Core s) (ho : Plain o) (hdead : s.alive o = false) :
    Core (s.begin o) := by
  have he : Elsewhere [o] [] s (s.begin o) :=
    ⟨fun p hp => update_of_ne (List.ne_of_not_mem_cons hp) _ _, fun _ _ => rfl, fun _ _ => rfl,
      fun _ _ => rfl, rfl, rfl⟩
  refine h.change he (h.handles_begin hdead) (.of_eq rfl) (fun _ _ _ _ => rfl) (fun p hp => ?_)
    (in_plain fun p hp => ?_) (fun c hc => absurd hc List.not_mem_nil)
  · rw [List.mem_singleton.1 hp]
    exact .of_null ho (h.handles.vacant o hdead)
  · rw [List.mem_singleton.1 hp]
    exact ho

theorem Core.create (h : Core s) (ho : Plain o) (hs : s.create o f = some t) : Core t := by
  unfold LazyResults.create at hs
  split_ifs at hs with hcond
  obtain ⟨hdead, hnew⟩ := hcond
  cases hs
  have he : Elsewhere [o] [] s
      { (s.begin o).setFrame f .initial with mState := update s.mState o (some f) } :=
    ⟨fun p hp => update_of_ne (List.ne_of_not_mem_cons hp) _ _,
      fun p hp => update_of_ne (List.ne_of_not_mem_cons hp) _ _, fun _ _ => rfl, fun _ _ => rfl,
      rfl, rfl⟩
  have hdestroys : (s.setFrame f .initial).destroys = update s.destroys f (some 0) :=
    destroys_setFrame s f .initial
  have hnone : s.destroys f = none := congrArg (Option.map LazyFrame.destroys) hnew
  have hhandles := (h.handles_begin hdead).create (h.handles.vacant o hdead) (update_self ..) hnone
  rw [← hdestroys] at hhandles
  have hne : ∀ p g, s.mState p = some g → g ≠ f := by
    rintro p g hp rfl
    obtain ⟨frame, hframe, _⟩ := h.frame_of_handle hp
    cases hnew.symm.trans hframe
  refine h.change he hhandles (.of_update rfl LazyFrame.isFresh_initial.sound ?_) ?_ ?_
    (in_plain ?_) (fun c hc => absurd hc List.not_mem_nil)
  · intro frame p hframe
    cases hnew.symm.trans hframe
  · exact fun p _ g hp => update_of_ne (hne p g hp) _ _
  · intro p hp
    rw [List.mem_singleton.1 hp]
    refine .of_plain ho fun g frame hg hframe => ?_
    have hself : update s.mState o (some f) o = some f := update_self ..
    cases hself.symm.trans hg
    have hframes : update s.frames f (some LazyFrame.initial) f = some LazyFrame.initial :=
      update_self ..
    cases hframes.symm.trans hframe
    exact .inl LazyFrame.isFresh_initial
  · intro p hp
    rw [List.mem_singleton.1 hp]
    exact ho

/-- The handles behind an exchange into an object whose lifetime begins. -/
theorem Core.handles_exchange (h : Core s) (hne : o ≠ rhs) (hdead : s.alive o = false) :
    Handles (update s.alive o true)
      (update (update s.mState o (s.mState rhs)) rhs none) s.destroys := by
  exact (h.handles_begin hdead).exchange hne (h.handles.vacant o hdead) (update_self ..)

theorem exchange_mState_self (hne : o ≠ rhs) :
    update (update s.mState o (s.mState rhs)) rhs none o = s.mState rhs := by
  rw [update_of_ne hne, update_self]

theorem exchange_mState_rhs : update (update s.mState o (s.mState rhs)) rhs none rhs = none :=
  update_self ..

theorem exchange_mState_of_notMem {p : LazyObject} (hp : p ∉ [o, rhs]) :
    update (update s.mState o (s.mState rhs)) rhs none p = s.mState p := by
  rw [List.mem_pair, not_or] at hp
  rw [update_of_ne hp.2, update_of_ne hp.1]

theorem Core.moveConstruct (h : Core s) (ho : Plain o) (hr : Plain rhs)
    (hs : s.moveConstruct o rhs = some t) : Core t := by
  unfold LazyResults.moveConstruct at hs
  split_ifs at hs with hcond
  obtain ⟨hdead, halive⟩ := hcond
  cases hs
  have hne : o ≠ rhs := by
    rintro rfl
    cases hdead.symm.trans halive
  have he : Elsewhere [o, rhs] [] s ((s.begin o).exchange o rhs) :=
    ⟨fun p hp => update_of_ne (List.ne_of_not_mem_cons hp) _ _,
      fun p hp => exchange_mState_of_notMem hp, fun _ _ => rfl, fun _ _ => rfl, rfl, rfl⟩
  have hpair : ∀ p ∈ [o, rhs], Plain p := by
    intro p hp
    rcases List.mem_pair.1 hp with rfl | rfl
    · exact ho
    · exact hr
  refine h.change he (h.handles_exchange hne hdead) (.of_eq rfl) (fun _ _ _ _ => rfl)
    (fun p hp => ?_) (in_plain hpair) (fun c hc => absurd hc List.not_mem_nil)
  rcases List.mem_pair.1 hp with rfl | rfl
  · refine .of_plain ho fun g frame hg hframe => ?_
    exact h.rests hr ((exchange_mState_self hne).symm.trans hg) hframe
  · exact .of_null hr exchange_mState_rhs

/-- The end of an object, with its handle. -/
theorem Core.release (h : Core s) (hfree : ∀ a, o = .awaitable a → (s.awaits a).awaiter = none)
    (hpoint : ∀ f frame, s.mState o = some f → s.frames f = some frame → frame.point ≠ .running) :
    Core ((s.destroyState o).release o) := by
  -- nobody is in a `co_await` of it
  have hin : ∀ c a, s.callers c = .suspended a ∨ s.callers c = .resuming a →
      (c ∈ ([] : List ℕ) ↔ LazyObject.awaitable a ∈ [o]) := by
    intro c a hc
    refine ⟨fun hmem => absurd hmem List.not_mem_nil, fun hmem => ?_⟩
    have hawaiter := (h.callers c a hc).2
    cases (hfree a (List.mem_singleton.1 hmem).symm).symm.trans hawaiter
  -- behind its end it holds nothing
  have hgone : ∀ {u : LazyResults α ε}, ∀ p ∈ [o], (u.release o).ObjectOk p := by
    intro u p hp
    rw [List.mem_singleton.1 hp]
    have hdead : (u.release o).alive o = false := update_self ..
    have hnull : (u.release o).mState o = none := update_self ..
    cases o with
    | result i => exact .of_null (plain_result i) hnull
    | awaitable =>
      intro ha
      cases hdead.symm.trans ha
  have halive : ∀ p, p ∉ [o] → update s.alive o false p = s.alive p := fun p hp =>
    update_of_ne (List.ne_of_not_mem_cons hp) _ _
  have hstate : ∀ p, p ∉ [o] → update s.mState o none p = s.mState p := fun p hp =>
    update_of_ne (List.ne_of_not_mem_cons hp) _ _
  cases ho : s.mState o with
  | none =>
    have hsame : s.destroyState o = s := by
      unfold destroyState
      rw [ho]
    rw [hsame]
    have he : Elsewhere [o] [] s (s.release o) :=
      ⟨halive, hstate, fun _ _ => rfl, fun _ _ => rfl, rfl, rfl⟩
    exact h.change he (h.handles.release_null ho) (.of_eq rfl) (fun _ _ _ _ => rfl) hgone hin
      (fun c hc => absurd hc List.not_mem_nil)
  | some f =>
    obtain ⟨frame, hframe, hd⟩ := h.frame_of_handle ho
    have hdestroy : s.destroyState o = s.setFrame f frame.destroyed := by
      have hmatch : s.destroyState o = s.destroy f := by
        unfold destroyState
        rw [ho]
      rw [hmatch]
      exact destroy_of_live hframe hd (hpoint f frame ho hframe)
    rw [hdestroy]
    have he : Elsewhere [o] [] s ((s.setFrame f frame.destroyed).release o) :=
      ⟨halive, hstate, fun _ _ => rfl, fun _ _ => rfl, rfl, rfl⟩
    have hdestroys : (s.setFrame f frame.destroyed).destroys = update s.destroys f (some 1) := by
      have hone : frame.destroyed.destroys = 1 := congrArg (· + 1) hd
      rw [destroys_setFrame, hone]
    have hhandles := h.handles.release ho
    rw [← hdestroys] at hhandles
    refine h.change he hhandles (.of_update rfl (h.sound f frame hframe).destroyed ?_) ?_ hgone hin
      (fun c hc => absurd hc List.not_mem_nil)
    · intro frame' p hframe' hp
      cases hframe.symm.trans hframe'
      exact hp
    · exact h.frames_of_notMem ho _

theorem Core.destroyResult (h : Core s) (ho : Plain o) (hs : s.destroyResult o = some t) :
    Core t := by
  unfold LazyResults.destroyResult at hs
  split_ifs at hs
  cases hs
  exact h.release
    (fun a ha => absurd ha (ho a)) fun f frame hf hframe => (h.rests ho hf hframe).ne_running

/-- An assignment is the end of what the object held, and a construction in its place. -/
theorem moveAssign_cases (hs : s.moveAssign o rhs = some t) :
    t = s ∨ rhs ≠ o ∧ ∃ u, s.destroyResult o = some u ∧ u.moveConstruct o rhs = some t := by
  unfold LazyResults.moveAssign at hs
  split_ifs at hs with hcond hself
  · cases hs
    exact .inl rfl
  · cases hs
    obtain ⟨ho, hr⟩ := hcond
    refine .inr ⟨hself, (s.destroyState o).release o, if_pos ho, ?_⟩
    have halive : (s.destroyState o).alive = s.alive := by
      unfold destroyState destroy
      split
      · rfl
      · split
        · rfl
        · rfl
    have hdead : ((s.destroyState o).release o).alive o = false := update_self ..
    have hralive : ((s.destroyState o).release o).alive rhs = true := by
      refine (update_of_ne hself _ _).trans ?_
      rw [halive]
      exact hr
    unfold LazyResults.moveConstruct
    rw [if_pos ⟨hdead, hralive⟩]
    -- the construction overwrites what the end of the object has written
    have hback : update (update (s.destroyState o).alive o false) o true =
        (s.destroyState o).alive := by
      rw [update_idem]
      refine update_eq_self_iff.2 ?_
      rw [halive]
      exact ho.symm
    simp only [LazyResults.release, LazyResults.begin, LazyResults.exchange, hback, update_idem,
      update_of_ne hself]

theorem Core.moveAssign (h : Core s) (ho : Plain o) (hr : Plain rhs)
    (hs : s.moveAssign o rhs = some t) : Core t := by
  rcases moveAssign_cases hs with rfl | ⟨-, u, hu, ht⟩
  · exact h
  · exact (h.destroyResult ho hu).moveConstruct ho hr ht

theorem Core.run (h : Core s) (ho : Plain o) (hr : Plain rhs) (hs : s.run o rhs = some t) :
    Core t := by
  unfold LazyResults.run at hs
  split_ifs at hs
  split at hs
  · cases hs
    exact h
  · exact h.moveConstruct hr ho hs

theorem Core.statusStep (h : Core s) (hs : s.statusStep o = some t) : t = s := by
  unfold LazyResults.statusStep at hs
  split_ifs at hs
  cases ho : s.mState o with
  | none =>
    simp only [status, throwIfEmpty, ho, Except.map] at hs
    exact (Option.some.inj hs).symm
  | some =>
    obtain ⟨frame, hframe, hd⟩ := h.frame_of_handle ho
    simp only [status, throwIfEmpty, ho, Except.map, use_of_live hframe hd] at hs
    exact (Option.some.inj hs).symm

/-! ### Awaitables -/

theorem AwaitableAt.intro {r : AwaitRecord} {pc : Option CallerPc} {fr : Option (LazyFrame α ε)}
    (hok : AwaitableOk a r pc fr) (hr : s.awaits a = r) (hpc : r.awaiter.map s.callers = pc)
    (hfr : (s.mState (.awaitable a)).bind s.frames = fr) : s.AwaitableAt a := by
  unfold AwaitableAt
  rw [hr, hpc, hfr]
  exact hok

/-- The frame behind an awaitable. -/
theorem bind_frames (ho : s.mState o = some f) (hframe : s.frames f = some frame) :
    (s.mState o).bind s.frames = some frame := by
  rw [ho]
  exact hframe

/-- `operator co_await` and `resolve` throw on an empty object, and otherwise hand its frame on. -/
theorem Core.makeAwaitable {kind : AwaitableKind} {message : String} (h : Core s) (ho : Plain o)
    (hs : s.makeAwaitable kind message o a = some t) : Core t := by
  unfold LazyResults.makeAwaitable at hs
  split_ifs at hs with hcond
  obtain ⟨halive, hdead⟩ := hcond
  cases hm : s.mState o with
  | none =>
    simp only [throwIfEmpty, hm] at hs
    cases hs
    exact h
  | some =>
    simp only [throwIfEmpty, hm] at hs
    cases hs
    obtain ⟨frame, hframe, hd⟩ := h.frame_of_handle hm
    have hne : LazyObject.awaitable a ≠ o := (ho a).symm
    have hrecord : update s.awaits a ⟨kind, none, 0, 0, 0⟩ a = ⟨kind, none, 0, 0, 0⟩ :=
      update_self ..
    have he : Elsewhere [.awaitable a, o] [] s
        (((s.begin (.awaitable a)).exchange (.awaitable a) o).setAwait a
          ⟨kind, none, 0, 0, 0⟩) := by
      exact ⟨fun p hp => update_of_ne (List.ne_of_not_mem_cons hp) _ _,
        fun p hp => exchange_mState_of_notMem hp, update_awaits_of_notMem List.mem_cons_self _,
        fun _ _ => rfl, rfl, rfl⟩
    refine h.change he (h.handles_exchange hne hdead) (.of_eq rfl) (fun _ _ _ _ => rfl)
      (fun p hp => ?_) (fun c b hc => ?_) (fun c hc => absurd hc List.not_mem_nil)
    · rcases List.mem_pair.1 hp with rfl | rfl
      · refine fun _ => .intro (.unused (h.rests ho hm hframe)) hrecord rfl ?_
        exact bind_frames ((exchange_mState_self hne).trans hm) hframe
      · exact .of_null ho exchange_mState_rhs
    · -- nobody awaits the new awaitable yet
      refine ⟨fun hmem => absurd hmem List.not_mem_nil, fun hmem => ?_⟩
      rcases List.mem_pair.1 hmem with hb | hb
      · cases hb
        cases hdead.symm.trans (h.callers c a hc).1
      · exact absurd hb.symm (ho b)

theorem Core.destroyAwaitable (h : Core s) (hfree : (s.awaits a).awaiter = none)
    (hs : s.destroyAwaitable a = some t) : Core t := by
  unfold LazyResults.destroyAwaitable at hs
  split_ifs at hs with halive
  have hat := h.awaitableAt halive
  have hcore : Core ((s.destroyState (.awaitable a)).release (.awaitable a)) := by
    refine h.release (fun b hb => ?_) fun f frame hf hframe => ?_
    · cases hb
      exact hfree
    · rcases hat.of_no_awaiter hfree with ⟨frame', hframe', hp⟩ | ⟨hnone, _⟩
      · cases (bind_frames hf hframe).symm.trans hframe'
        exact hp
      · cases (bind_frames hf hframe).symm.trans hnone
  split at hs
  next hkind hnull =>
    -- a `lazy_awaitable` still has its handle
    rcases hat.of_no_awaiter hfree with ⟨frame, hframe, _⟩ | ⟨_, hresolve⟩
    · rw [hnull] at hframe
      cases hframe
    · cases hkind.symm.trans hresolve
  next =>
    cases hs
    exact hcore

/-! ### Awaiting -/

theorem await_eq (hc : s.callers c = .running) (halive : s.alive (.awaitable a) = true)
    (hm : s.mState (.awaitable a) = some f) (hframe : s.frames f = some frame)
    (hd : frame.destroys = 0) :
    s.await c a = some (if frame.point = .finished then (s.enter c a).setCaller c (.resuming a)
      else (s.enter c a).awaitSuspend c a f frame) := by
  simp only [LazyResults.await, hc, halive, and_self, if_true, hm, hframe, use_of_live hframe hd]
  split
  · rfl
  · rfl

theorem await_cond (hs : s.await c a = some t) :
    s.callers c = .running ∧ s.alive (.awaitable a) = true := by
  unfold LazyResults.await at hs
  split_ifs at hs with hcond
  exact hcond

/-- The frame, the record and the coroutine of one `co_await`. -/
def inside (s : LazyResults α ε) (f : ℕ) (frame : LazyFrame α ε) (a : ℕ) (r : AwaitRecord)
    (c : ℕ) (pc : CallerPc) : LazyResults α ε :=
  ((s.setFrame f frame).setAwait a r).setCaller c pc

/-- **A step of a `co_await`** changes its own frame, record and coroutine, when no other coroutine
is in it. -/
theorem Core.inside (frame' : LazyFrame α ε) (r : AwaitRecord) (pc : CallerPc) (h : Core s)
    (hm : s.mState (.awaitable a) = some f) (hframe : s.frames f = some frame)
    (hin : ∀ c' b, s.callers c' = .suspended b ∨ s.callers c' = .resuming b → (c' = c ↔ b = a))
    (hsound : frame'.Sound) (hd : frame'.destroys = frame.destroys)
    (houtcome : ∀ p, frame.outcome = some p → frame'.outcome = some p)
    (hok : AwaitableOk a r (r.awaiter.map fun _ => pc) (some frame'))
    (hpc : r.awaiter = none ∧ pc = .running ∨ r.awaiter = some c ∧
      (pc = .suspended a ∨ pc = .resuming a)) :
    Core (s.inside f frame' a r c pc) := by
  have he : Elsewhere [.awaitable a] [c] s (s.inside f frame' a r c pc) :=
    ⟨fun _ _ => rfl, fun _ _ => rfl, update_awaits_of_notMem List.mem_cons_self _,
      update_callers_of_notMem _, rfl, rfl⟩
  have hrec : (s.inside f frame' a r c pc).awaits a = r := update_self ..
  have hcaller : (s.inside f frame' a r c pc).callers c = pc := update_self ..
  have hself : (s.inside f frame' a r c pc).frames f = some frame' := update_self ..
  have hdestroys : (s.inside f frame' a r c pc).destroys = s.destroys :=
    destroys_setFrame_of_eq (s := s) hframe hd
  refine h.change he (hdestroys ▸ h.handles) (.of_update rfl hsound ?_)
    (h.frames_of_notMem hm _) ?_ ?_ ?_
  · intro fr p hfr hp
    cases hframe.symm.trans hfr
    exact houtcome p hp
  · intro o ho
    rw [List.mem_singleton.1 ho]
    refine fun _ => .intro hok hrec ?_ (bind_frames hm hself)
    rcases hpc with ⟨hr, -⟩ | ⟨hr, -⟩ <;> rw [hr]
    · rfl
    · exact congrArg some hcaller
  · intro c' b hc'
    rw [List.mem_singleton, List.mem_singleton, hin c' b hc', LazyObject.awaitable.injEq]
  · intro c' hc' b hb
    rw [List.mem_singleton.1 hc'] at hb ⊢
    rw [hcaller] at hb
    rcases hpc with ⟨-, rfl⟩ | ⟨hr, rfl | rfl⟩ <;> rcases hb with hb | hb <;> cases hb
    all_goals exact ⟨h.handles.alive_of_eq_some hm, (congrArg AwaitRecord.awaiter hrec).trans hr⟩

/-- **The first `co_await` of an awaitable.**  When the body has not begun, it begins, and the
caller is suspended; when it has ended, the caller goes on with the stored outcome. -/
theorem Core.await (h : Core s) (hfirst : (s.awaits a).awaits = 0) (hs : s.await c a = some t) :
    Core t := by
  obtain ⟨hrunning, halive⟩ := await_cond hs
  obtain ⟨hrecord, frame, hbind, hrests⟩ := (h.awaitableAt halive).of_unawaited hfirst
  obtain ⟨f, hm, hframe⟩ := Option.bind_eq_some_iff.1 hbind
  obtain ⟨frame', hframe', hd⟩ := h.frame_of_handle hm
  cases hframe.symm.trans hframe'
  rw [await_eq hrunning halive hm hframe hd] at hs
  -- nobody awaits `a`, and `c` awaits nothing
  have hin : ∀ c' b, s.callers c' = .suspended b ∨ s.callers c' = .resuming b →
      (c' = c ↔ b = a) := by
    intro c' b hc'
    constructor
    · rintro rfl
      rw [hrunning] at hc'
      rcases hc' with hc' | hc'
      · cases hc'
      · cases hc'
    · rintro rfl
      have hawaiter := (h.callers c' b hc').2
      rw [hrecord] at hawaiter
      cases hawaiter
  rcases hrests with hfresh | hstored
  · -- the body begins
    have hpoint : frame.point ≠ .finished := by
      intro hp
      cases hp.symm.trans hfresh.point
    have hcheck : decide (frame.point = .initial ∨ frame.point = .suspended) = true :=
      decide_eq_true (.inl hfresh.point)
    have hbegun : LazyFrame.IsBegun
        { frame with callerHandle := some c, point := .running, starts := frame.starts + 1 } c :=
      ⟨.inl rfl, congrArg (· + 1) hfresh.starts, rfl, hfresh.producer, hfresh.outcome⟩
    have ht : t = s.inside f { frame with
        callerHandle := some c
        point := .running
        starts := frame.starts + 1 } a ⟨(s.awaits a).kind, some c, 1, 1, 0⟩ c (.suspended a) := by
      rw [if_neg hpoint] at hs
      simp only [awaitSuspend, hcheck, check_true, enter, setAwait, setCaller, setFrame,
        update_self, update_idem] at hs
      rw [hrecord] at hs
      exact (Option.some.inj hs).symm
    rw [ht]
    exact h.inside _ ⟨(s.awaits a).kind, _, _, _, _⟩ _ hm hframe hin hbegun.sound rfl
      (fun p hp => by cases hfresh.outcome.symm.trans hp) (.inBody hbegun) (.inr ⟨rfl, .inl rfl⟩)
  · -- the body has ended
    have ht : t = s.inside f frame a ⟨(s.awaits a).kind, some c, 1, 0, 0⟩ c (.resuming a) := by
      rw [if_pos hstored.point] at hs
      have hsame : s.setFrame f frame = s := by
        unfold setFrame
        rw [update_eq_self_iff.2 hframe.symm]
      unfold LazyResults.inside
      rw [hsame, hrecord]
      unfold enter at hs
      rw [hrecord] at hs
      exact (Option.some.inj hs).symm
    rw [ht]
    exact h.inside frame ⟨(s.awaits a).kind, _, _, _, _⟩ _ hm hframe hin hstored.toIsOver.sound rfl
      (fun p hp => hp) (.ending zero_le_one hstored) (.inr ⟨rfl, .inr rfl⟩)

/-- A coroutine in a `co_await` of `a` is the only one there. -/
theorem Core.in_awaitable (h : Core s) (hc : s.callers c = .suspended a ∨ s.callers c = .resuming a)
    (c' : ℕ) (b : ℕ) (hc' : s.callers c' = .suspended b ∨ s.callers c' = .resuming b) :
    c' = c ↔ b = a := by
  constructor
  · rintro rfl
    rcases hc with hc | hc <;> rcases hc' with hc' | hc' <;> cases hc.symm.trans hc' <;> rfl
  · rintro rfl
    have heq := (h.callers c' b hc').2.symm.trans (h.callers c b hc).2
    exact Option.some.inj heq

/-- A coroutine before `await_resume`, with the frame it reads. -/
theorem Core.resuming (h : Core s) (hc : s.callers c = .resuming a) :
    ∃ n f frame, n ≤ 1 ∧ s.awaits a = ⟨(s.awaits a).kind, some c, 1, n, n⟩ ∧
      s.mState (.awaitable a) = some f ∧ s.frames f = some frame ∧ frame.destroys = 0 ∧
      frame.IsStored := by
  obtain ⟨halive, hawaiter⟩ := h.callers c a (.inr hc)
  have hpc : (s.awaits a).awaiter.map s.callers = some (.resuming a) := by
    rw [hawaiter]
    exact congrArg some hc
  obtain ⟨-, kind, c', n, frame, hrecord, hn, hbind, hstored⟩ :=
    (h.awaitableAt halive).of_resuming hpc
  obtain ⟨f, hm, hframe⟩ := Option.bind_eq_some_iff.1 hbind
  obtain ⟨frame', hframe', hd⟩ := h.frame_of_handle hm
  cases hframe.symm.trans hframe'
  rw [hrecord] at hawaiter
  cases hawaiter
  exact ⟨n, f, frame, hn, by rw [hrecord], hm, hframe, hd, hstored⟩

/-- **The end of a `co_await` of a `lazy_awaitable`** gives the caller what the body has ended
with. -/
theorem Core.awaitResume {moved : α → α} {p : ProducerContext α ε} (h : Core s)
    (hs : s.awaitResume moved c = some (p, t)) : Core t := by
  unfold LazyResults.awaitResume at hs
  split at hs
  case h_2 => cases hs
  next a hc =>
  split_ifs at hs with hkind
  obtain ⟨n, f, frame, hn, hrecord, hm, hframe, hd, hstored⟩ := h.resuming hc
  have hleave : (s.leave c a).frames f = some frame := hframe
  have hcheck : decide (frame.producer.status ≠ .idle) = true := decide_eq_true hstored.status
  simp only [hm, LazyResults.get, hleave, use_of_live hleave hd, hcheck, check_true] at hs
  have hover : LazyFrame.IsOver { frame with producer := frame.producer.movedOut moved } :=
    ⟨hstored.point, hstored.starts, hstored.outcome⟩
  have hcore := h.inside _ _ .running hm hframe (h.in_awaitable (.inr hc)) hover.sound rfl
    (fun p hp => hp) (.awaited hn hover) (.inl ⟨rfl, rfl⟩)
  have hrec : { s.awaits a with awaiter := none } = (⟨.await, none, 1, n, n⟩ : AwaitRecord) := by
    rw [hrecord, hkind]
  have ht : t = { s.inside f { frame with producer := frame.producer.movedOut moved } a
      ⟨.await, none, 1, n, n⟩ c .running with deliveries := s.deliveries ++ [⟨f, c, p⟩] } := by
    cases hs
    unfold leave
    rw [hrec]
    rfl
  have hp : p = frame.producer := by
    cases hs
    rfl
  rw [ht]
  refine ⟨hcore.handles, hcore.sound, fun o => ?_, hcore.callers, fun d hd => ?_, hcore.failed⟩
  · exact (hcore.objects o).congr rfl rfl (fun _ _ => rfl) fun _ _ => ⟨rfl, fun _ _ => rfl⟩
  · rcases List.mem_append.1 hd with hd | hd
    · exact hcore.delivered d hd
    · rw [List.mem_singleton.1 hd, hp]
      exact ⟨_, update_self .., hstored.producer⟩

/-- The end of a `co_await` of a `lazy_resolve_awaitable` gives its frame to the new
`lazy_result`. -/
theorem Core.resolveResume (h : Core s) (ho : Plain o) (hs : s.resolveResume c o = some t) :
    Core t := by
  unfold LazyResults.resolveResume at hs
  split at hs
  case h_2 => cases hs
  next a hc =>
  split_ifs at hs with hcond
  obtain ⟨hkind, hdead⟩ := hcond
  obtain ⟨n, f, frame, hn, hrecord, hm, hframe, hd, hstored⟩ := h.resuming hc
  cases hs
  have hne : o ≠ .awaitable a := ho a
  set u := ((s.leave c a).begin o).exchange o (.awaitable a) with hu
  have hrec : u.awaits a = ⟨.resolve, none, 1, n, n⟩ := by
    refine (update_self ..).trans ?_
    rw [hrecord, hkind]
  have hpc : u.callers c = .running := update_self ..
  have hnull : u.mState (.awaitable a) = none := exchange_mState_rhs
  have he : Elsewhere [o, .awaitable a] [c] s u :=
    ⟨fun p hp => update_of_ne (List.ne_of_not_mem_cons hp) _ _,
      fun p hp => exchange_mState_of_notMem hp,
      update_awaits_of_notMem (List.mem_pair.2 (.inr rfl)) _, update_callers_of_notMem _, rfl, rfl⟩
  refine h.change he (h.handles_exchange hne hdead) (.of_eq rfl) (fun _ _ _ _ => rfl) ?_ ?_ ?_
  · intro p hp
    rcases List.mem_pair.1 hp with rfl | rfl
    · refine .of_plain ho fun g fr hg hfr => ?_
      cases hm.symm.trans ((exchange_mState_self hne).symm.trans hg)
      cases hframe.symm.trans hfr
      exact .inr hstored
    · refine fun _ => .intro (.resolved hn) hrec rfl ?_
      rw [hnull]
      rfl
  · intro c' b hc'
    rw [List.mem_singleton, List.mem_pair, h.in_awaitable (.inr hc) c' b hc',
      LazyObject.awaitable.injEq]
    exact ⟨.inr, fun hb => hb.resolve_left fun hbo => ho b hbo.symm⟩
  · intro c' hc' b hb
    rw [List.mem_singleton.1 hc', hpc] at hb
    rcases hb with hb | hb
    · cases hb
    · cases hb

/-! ### Bodies -/

theorem resumeCaller_of_suspended (hc : s.callers c = .suspended a) :
    s.resumeCaller (some c) = (s.setCaller c (.resuming a)).setAwait a
      { s.awaits a with resumes := (s.awaits a).resumes + 1 } := by
  simp only [resumeCaller, hc]

/-- A body that has begun and not ended runs for the coroutine that is suspended in the awaitable
with its frame. -/
theorem Core.begun (h : Core s) (hframe : s.frames f = some frame) (hd : frame.destroys = 0)
    (hpoint : frame.point = .running ∨ frame.point = .suspended) :
    ∃ c a kind, frame.IsBegun c ∧ s.mState (.awaitable a) = some f ∧ s.alive (.awaitable a) = true ∧
      s.awaits a = ⟨kind, some c, 1, 1, 0⟩ ∧ s.callers c = .suspended a := by
  have hpoint : frame.point ≠ .initial ∧ frame.point ≠ .finished := by
    rcases hpoint with hp | hp <;> rw [hp] <;> decide
  obtain ⟨c, hbegun⟩ : ∃ c, frame.IsBegun c := by
    rcases h.sound f frame hframe with hfresh | hbegun | hover
    · exact absurd hfresh.point hpoint.1
    · exact hbegun
    · exact absurd hover.point hpoint.2
  have hlive : s.destroys f = some 0 :=
    (congrArg (Option.map LazyFrame.destroys) hframe).trans (congrArg some hd)
  obtain ⟨o, ho⟩ := (h.handles.owned f).2 hlive
  have hm : s.mState o = some f := Handles.mem_heldFrames.1 ho
  have hnot : ¬ frame.Rests := by
    rintro (hfresh | hstored)
    · exact hpoint.1 hfresh.point
    · exact hpoint.2 hstored.point
  cases o with
  | result i => exact absurd (h.rests (plain_result i) hm hframe) hnot
  | awaitable a =>
    have halive := h.handles.alive_of_eq_some hm
    obtain ⟨kind, hrecord, hpc⟩ := (h.awaitableAt halive).of_isBegun (bind_frames hm hframe) hbegun
    have hcaller : s.callers c = .suspended a := by
      rw [hrecord] at hpc
      exact Option.some.inj hpc
    exact ⟨c, a, kind, hbegun, hm, halive, hrecord, hcaller⟩

/-- The body goes on: it suspends, or is resumed where it has suspended. -/
theorem Core.moveBody (h : Core s) (hframe : s.frames f = some frame) (hd : frame.destroys = 0)
    (hpoint : frame.point = .running ∨ frame.point = .suspended) {point : BodyPoint}
    (hnew : point = .running ∨ point = .suspended) :
    Core (s.setFrame f { frame with point := point }) := by
  obtain ⟨c, a, kind, hbegun, hm, halive, hrecord, hc⟩ := h.begun hframe hd hpoint
  have hbegun' : LazyFrame.IsBegun { frame with point := point } c :=
    ⟨hnew, hbegun.starts, hbegun.callerHandle, hbegun.producer, hbegun.outcome⟩
  have hsame : s.setFrame f { frame with point := point } =
      s.inside f { frame with point := point } a (s.awaits a) c (s.callers c) := by
    unfold LazyResults.inside setAwait setCaller setFrame
    simp only [update_eq_self]
  have hinside :=
    h.inside _ ⟨kind, _, _, _, _⟩ _ hm hframe (h.in_awaitable (.inl hc)) hbegun'.sound rfl
    (fun p hp => hp) (.inBody hbegun') (.inr ⟨rfl, .inl rfl⟩)
  rw [← hrecord, ← hc, ← hsame] at hinside
  exact hinside

/-- **The end of the body** stores its outcome and resumes the coroutine that is suspended for
it. -/
theorem Core.finish (h : Core s) (hframe : s.frames f = some frame) (hd : frame.destroys = 0)
    (hpoint : frame.point = .running) {p : ProducerContext α ε} (hp : p.status ≠ .idle) :
    Core (s.finish f frame p) := by
  obtain ⟨c, a, kind, hbegun, hm, halive, hrecord, hc⟩ := h.begun hframe hd (.inl hpoint)
  have hidle : frame.producer.status = .idle := by
    rw [hbegun.producer]
    rfl
  set frame' : LazyFrame α ε := { frame with
    point := .finished
    producer := p
    outcome := some p }
  have hstored : frame'.IsStored := by
    refine ⟨⟨rfl, hbegun.starts, ?_⟩, rfl, hp⟩
    intro hnone
    cases hnone
  have hfinish : s.finish f frame p =
      s.inside f frame' a ⟨kind, some c, 1, 1, 1⟩ c (.resuming a) := by
    change ((s.setFrame f frame').check (frame.producer.status = .idle)).resumeCaller
      frame.callerHandle = _
    rw [decide_eq_true hidle, check_true, hbegun.callerHandle]
    refine (resumeCaller_of_suspended (s := s.setFrame f frame') hc).trans ?_
    change ((s.setFrame f frame').setCaller c (.resuming a)).setAwait a
      { s.awaits a with resumes := (s.awaits a).resumes + 1 } = _
    rw [hrecord]
    rfl
  rw [hfinish]
  exact h.inside _ ⟨kind, _, _, _, _⟩ _ hm hframe
    (h.in_awaitable (.inl hc)) hstored.toIsOver.sound rfl
    (fun q hq => by cases hbegun.outcome.symm.trans hq) (.ending le_rfl hstored)
    (.inr ⟨rfl, .inr rfl⟩)

theorem Core.bodyStep {event : BodyEvent α ε} (h : Core s) (hs : s.bodyStep f event = some t) :
    Core t := by
  unfold LazyResults.bodyStep at hs
  split at hs
  case h_1 => cases hs
  next frame hframe =>
  split_ifs at hs with hd
  split at hs
  next hp =>
    cases hs
    exact h.moveBody hframe hd (.inl hp) (.inr rfl)
  next hp =>
    cases hs
    exact h.moveBody hframe hd (.inr hp) (.inl rfl)
  next object hp =>
    cases hs
    refine h.finish hframe hd hp ?_
    intro hidle
    cases hidle
  next error hp =>
    cases hs
    refine h.finish hframe hd hp ?_
    intro hidle
    cases hidle
  next => cases hs

end LazyResults
end Concurrencpp
