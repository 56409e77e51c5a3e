import Concurrencpp.Placement
import Concurrencpp.Results.LazyResult

/-!
# Who holds the frame of a lazy task

* `Handles`: every frame that has not been destroyed is held by exactly one object, and the others
  by none.
* `AwaitableOk`: an awaitable from its construction to the end of its `co_await`, with the point its
  body is at and what the awaiting coroutine does.
* `Core`: both, for all objects, and what has been delivered.
* `Elsewhere`, `Core.change`: an operation touches a few objects and one frame.
-/

namespace Concurrencpp

open Placement
open Function (update update_eq_self_iff update_self update_of_ne)

/-! ### Frames -/

namespace LazyFrame

variable {α ε : Type} {frame : LazyFrame α ε} {c : ℕ}

/-- The body has not begun. -/
structure IsFresh (frame : LazyFrame α ε) : Prop where
  point : frame.point = .initial
  starts : frame.starts = 0
  producer : frame.producer = .idle
  outcome : frame.outcome = none

/-- The body has begun for the caller `c`, and has not ended. -/
structure IsBegun (frame : LazyFrame α ε) (c : ℕ) : Prop where
  point : frame.point = .running ∨ frame.point = .suspended
  starts : frame.starts = 1
  callerHandle : frame.callerHandle = some c
  producer : frame.producer = .idle
  outcome : frame.outcome = none

/-- The body has ended. -/
structure IsOver (frame : LazyFrame α ε) : Prop where
  point : frame.point = .finished
  starts : frame.starts = 1
  outcome : frame.outcome ≠ none

/-- The body has ended, and nobody has moved its value away. -/
structure IsStored (frame : LazyFrame α ε) : Prop extends IsOver frame where
  producer : frame.outcome = some frame.producer
  status : frame.producer.status ≠ .idle

/-- The body has not begun, or has ended. -/
def Rests (frame : LazyFrame α ε) : Prop := frame.IsFresh ∨ frame.IsStored

def Sound (frame : LazyFrame α ε) : Prop := frame.IsFresh ∨ (∃ c, frame.IsBegun c) ∨ frame.IsOver

theorem IsFresh.sound (h : frame.IsFresh) : frame.Sound := .inl h

theorem IsBegun.sound (h : frame.IsBegun c) : frame.Sound := .inr (.inl ⟨c, h⟩)

theorem IsOver.sound (h : frame.IsOver) : frame.Sound := .inr (.inr h)

theorem isFresh_initial : (initial : LazyFrame α ε).IsFresh := ⟨rfl, rfl, rfl, rfl⟩

theorem IsBegun.ne_finished (h : frame.IsBegun c) : frame.point ≠ .finished := by
  intro hp
  rcases h.point with h | h
  · cases hp.symm.trans h
  · cases hp.symm.trans h

theorem Rests.ne_running (h : frame.Rests) : frame.point ≠ .running := by
  intro hp
  rcases h with h | h
  · cases hp.symm.trans h.point
  · cases hp.symm.trans h.point

theorem IsOver.ne_running (h : frame.IsOver) : frame.point ≠ .running := by
  intro hp
  cases hp.symm.trans h.point

theorem Sound.starts (h : frame.Sound) :
    frame.starts = if frame.point = .initial then 0 else 1 := by
  rcases h with hfresh | ⟨c, hbegun⟩ | hover
  · rw [if_pos hfresh.point]
    exact hfresh.starts
  · have hpoint : frame.point ≠ .initial := by
      intro hp
      rcases hbegun.point with hp' | hp'
      · cases hp.symm.trans hp'
      · cases hp.symm.trans hp'
    rw [if_neg hpoint]
    exact hbegun.starts
  · have hpoint : frame.point ≠ .initial := by
      intro hp
      cases hp.symm.trans hover.point
    rw [if_neg hpoint]
    exact hover.starts

theorem Sound.finished_of_outcome {p : ProducerContext α ε} (h : frame.Sound)
    (hp : frame.outcome = some p) : frame.point = .finished := by
  rcases h with hfresh | ⟨c, hbegun⟩ | hover
  · cases hfresh.outcome.symm.trans hp
  · cases hbegun.outcome.symm.trans hp
  · exact hover.point

/-- `coroutine_handle::destroy` in the frame. -/
def destroyed (frame : LazyFrame α ε) : LazyFrame α ε :=
  { frame with destroys := frame.destroys + 1 }

theorem Sound.destroyed (h : frame.Sound) : frame.destroyed.Sound := by
  rcases h with h | ⟨c, h⟩ | h
  · exact .inl ⟨h.point, h.starts, h.producer, h.outcome⟩
  · exact .inr (.inl ⟨c, h.point, h.starts, h.callerHandle, h.producer, h.outcome⟩)
  · exact .inr (.inr ⟨h.point, h.starts, h.outcome⟩)

end LazyFrame

/-! ### Handles -/

/-- The frames that an object holds: one or none. -/
def heldFrames (mState : LazyObject → Option ℕ) (o : LazyObject) : List ℕ := (mState o).toList

/-- Every frame is held by one object, until it is destroyed, and then by none. -/
structure Handles (alive : LazyObject → Bool) (mState : LazyObject → Option ℕ)
    (destroys : ℕ → Option ℕ) : Prop where
  placed : Placed (heldFrames mState)
  vacant : ∀ o, alive o = false → mState o = none
  owned : ∀ f, Held (heldFrames mState) f ↔ destroys f = some 0
  destroyed : ∀ f n, destroys f = some n → n ≤ 1

namespace Handles

variable {alive alive' : LazyObject → Bool} {mState : LazyObject → Option ℕ}
  {destroys : ℕ → Option ℕ} {o rhs : LazyObject} {f : ℕ}

theorem mem_heldFrames : f ∈ heldFrames mState o ↔ mState o = some f := Option.mem_toList

theorem heldFrames_update (o : LazyObject) (p : Option ℕ) :
    heldFrames (update mState o p) = update (heldFrames mState) o p.toList :=
  Function.comp_update Option.toList mState o p

theorem heldFrames_eq_nil (ho : mState o = none) : heldFrames mState o = [] := by
  rw [heldFrames, ho, Option.toList_none]

section

variable (h : Handles alive mState destroys)
include h

theorem unique (ho : mState o = some f) (hr : mState rhs = some f) : o = rhs :=
  h.placed.unique (mem_heldFrames.2 ho) (mem_heldFrames.2 hr)

theorem live (ho : mState o = some f) : destroys f = some 0 :=
  (h.owned f).1 ⟨o, mem_heldFrames.2 ho⟩

theorem alive_of_eq_some (ho : mState o = some f) : alive o = true := by
  by_contra hdead
  cases ho.symm.trans (h.vacant o (Bool.eq_false_iff.2 hdead))

theorem destroyed_update {k : ℕ} (hk : k ≤ 1) :
    ∀ g n, update destroys f (some k) g = some n → n ≤ 1 := by
  refine (Function.forall_update_iff destroys fun _ v => ∀ n, v = some n → n ≤ 1).2
    ⟨fun n hn => ?_, fun g _ => h.destroyed g⟩
  cases hn
  exact hk

/-- Lifetimes begin. -/
theorem mono (halive : ∀ o, alive' o = false → alive o = false) : Handles alive' mState destroys :=
  ⟨h.placed, fun o ho => h.vacant o (halive o ho), h.owned, h.destroyed⟩

/-- `std::exchange` into an object with a null handle. -/
theorem exchange (hne : o ≠ rhs) (ho : mState o = none) (halive : alive o = true) :
    Handles alive (update (update mState o (mState rhs)) rhs none) destroys := by
  have hframes : heldFrames (update (update mState o (mState rhs)) rhs none) =
      update (update (heldFrames mState) o (heldFrames mState rhs)) rhs [] := by
    rw [heldFrames_update, heldFrames_update]
    rfl
  obtain ⟨hplaced, hheld⟩ := h.placed.transfer hne (heldFrames_eq_nil ho)
  refine ⟨hframes ▸ hplaced, fun p hp => ?_, fun f => ?_, h.destroyed⟩
  · by_cases hpr : p = rhs
    · subst hpr
      exact update_self ..
    · have hpo : p ≠ o := by
        rintro rfl
        cases hp.symm.trans halive
      rw [update_of_ne hpr, update_of_ne hpo]
      exact h.vacant p hp
  · rw [hframes, hheld f]
    exact h.owned f

/-- A null handle goes with its object. -/
theorem release_null (ho : mState o = none) :
    Handles (update alive o false) (update mState o none) destroys := by
  have hsame : update mState o none = mState := update_eq_self_iff.2 ho.symm
  rw [hsame]
  refine ⟨h.placed, fun p hp => ?_, h.owned, h.destroyed⟩
  by_cases hpo : p = o
  · rw [hpo]
    exact ho
  · rw [update_of_ne hpo] at hp
    exact h.vacant p hp

/-- An object goes, and destroys its frame. -/
theorem release (ho : mState o = some f) :
    Handles (update alive o false) (update mState o none)
      (update destroys f (some 1)) := by
  have hframes : heldFrames (update mState o none) = update (heldFrames mState) o [] :=
    heldFrames_update o none
  have hmem : ∀ g, g ∈ heldFrames mState o ↔ g = f := by
    intro g
    rw [mem_heldFrames, ho]
    exact ⟨fun heq => (Option.some.inj heq).symm, fun heq => congrArg some heq.symm⟩
  obtain ⟨hplaced, hheld⟩ := h.placed.clear o
  refine ⟨hframes ▸ hplaced, fun p hp => ?_, fun g => ?_, h.destroyed_update le_rfl⟩
  · by_cases hpo : p = o
    · subst hpo
      exact update_self ..
    · rw [update_of_ne hpo] at hp ⊢
      exact h.vacant p hp
  · rw [hframes, hheld g, hmem]
    by_cases hgf : g = f
    · subst hgf
      rw [update_self]
      exact ⟨fun hg => absurd rfl hg.2, fun hg => (by cases hg)⟩
    · rw [update_of_ne hgf]
      exact ⟨fun hg => (h.owned g).1 hg.1, fun hg => ⟨(h.owned g).2 hg, hgf⟩⟩

/-- A new frame and the object that holds it. -/
theorem create (ho : mState o = none) (halive : alive o = true) (hf : destroys f = none) :
    Handles alive (update mState o (some f)) (update destroys f (some 0)) := by
  have hframes : heldFrames (update mState o (some f)) = update (heldFrames mState) o [f] :=
    heldFrames_update o (some f)
  have hnew : ¬ Held (heldFrames mState) f := by
    intro hheld
    cases hf.symm.trans ((h.owned f).1 hheld)
  have hself : (update (heldFrames mState) o [f] o).Perm ([f] ++ heldFrames mState o) := by
    rw [update_self, heldFrames_eq_nil ho, List.append_nil]
  have hother : ∀ p, p ≠ o → update (heldFrames mState) o [f] p = heldFrames mState p :=
    fun p hp => update_of_ne hp _ _
  refine ⟨hframes ▸ h.placed.insert hnew hself hother, fun p hp => ?_, fun g => ?_,
    h.destroyed_update zero_le_one⟩
  · have hpo : p ≠ o := by
      rintro rfl
      cases hp.symm.trans halive
    rw [update_of_ne hpo]
    exact h.vacant p hp
  · rw [hframes, held_append hself hother, List.mem_singleton]
    by_cases hgf : g = f
    · subst hgf
      rw [update_self]
      exact ⟨fun _ => rfl, fun _ => .inr rfl⟩
    · rw [update_of_ne hgf, h.owned g]
      exact ⟨fun hg => hg.resolve_right hgf, .inl⟩

end

end Handles

/-! ### Awaitables -/

/-- An awaitable from its construction on: `record` is the record of its use, `pc` is where the
coroutine in its `co_await` is, `frame` is the frame it holds. -/
inductive AwaitableOk {α ε : Type} (a : ℕ) :
    AwaitRecord → Option CallerPc → Option (LazyFrame α ε) → Prop
  | unused {kind frame} : frame.Rests → AwaitableOk a ⟨kind, none, 0, 0, 0⟩ none (some frame)
  | inBody {kind c frame} : frame.IsBegun c →
      AwaitableOk a ⟨kind, some c, 1, 1, 0⟩ (some (.suspended a)) (some frame)
  | ending {kind c n frame} : n ≤ 1 → frame.IsStored →
      AwaitableOk a ⟨kind, some c, 1, n, n⟩ (some (.resuming a)) (some frame)
  | awaited {n frame} : n ≤ 1 → frame.IsOver →
      AwaitableOk a ⟨.await, none, 1, n, n⟩ none (some frame)
  | resolved {n} : n ≤ 1 → AwaitableOk a ⟨.resolve, none, 1, n, n⟩ none none

namespace AwaitableOk

variable {α ε : Type} {a : ℕ} {r : AwaitRecord} {pc : Option CallerPc}
  {frame : Option (LazyFrame α ε)} {c : ℕ}

section

variable (h : AwaitableOk a r pc frame)
include h

theorem of_unawaited (hr : r.awaits = 0) :
    r = ⟨r.kind, none, 0, 0, 0⟩ ∧ ∃ fr, frame = some fr ∧ fr.Rests := by
  cases h with
  | unused h => exact ⟨rfl, _, rfl, h⟩
  | _ => cases hr

theorem of_suspended {b : ℕ} (hpc : pc = some (.suspended b)) :
    b = a ∧ ∃ kind c fr, r = ⟨kind, some c, 1, 1, 0⟩ ∧ frame = some fr ∧ fr.IsBegun c := by
  cases h with
  | inBody h =>
    cases hpc
    exact ⟨rfl, _, _, _, rfl, rfl, h⟩
  | _ => cases hpc

theorem of_resuming {b : ℕ} (hpc : pc = some (.resuming b)) :
    b = a ∧ ∃ kind c n fr, r = ⟨kind, some c, 1, n, n⟩ ∧ n ≤ 1 ∧ frame = some fr ∧ fr.IsStored := by
  cases h with
  | ending hn h =>
    cases hpc
    exact ⟨rfl, _, _, _, _, rfl, hn, rfl, h⟩
  | _ => cases hpc

/-- Outside of its `co_await` an awaitable holds a frame that may be destroyed, or it has been
emptied and is not a `lazy_awaitable`. -/
theorem of_no_awaiter (hr : r.awaiter = none) :
    (∃ fr, frame = some fr ∧ fr.point ≠ .running) ∨ frame = none ∧ r.kind = .resolve := by
  cases h with
  | unused h | awaited _ h => exact .inl ⟨_, rfl, h.ne_running⟩
  | inBody => cases hr
  | ending => cases hr
  | resolved => exact .inr ⟨rfl, rfl⟩

/-- While an awaitable has an awaiter, that coroutine is in its `co_await`. -/
theorem of_awaiter (hr : r.awaiter = some c) :
    pc = some (.suspended a) ∨ pc = some (.resuming a) := by
  cases h with
  | unused | awaited | resolved => cases hr
  | inBody => exact .inl rfl
  | ending => exact .inr rfl

/-- The body behind an awaitable with a begun frame runs for its awaiter. -/
theorem of_isBegun {fr : LazyFrame α ε} (hframe : frame = some fr) (hfr : fr.IsBegun c) :
    ∃ kind, r = ⟨kind, some c, 1, 1, 0⟩ ∧ pc = some (.suspended a) := by
  have hpoint : ∀ {fr' : LazyFrame α ε}, some fr' = some fr → fr'.IsBegun c := fun heq =>
    (Option.some.inj heq) ▸ hfr
  cases h with
  | unused h =>
    have hfr := hpoint hframe
    rcases h with h | h
    · rcases hfr.point with hp | hp
      · cases hp.symm.trans h.point
      · cases hp.symm.trans h.point
    · exact absurd h.point hfr.ne_finished
  | @inBody kind c' _ h =>
    have hfr := hpoint hframe
    obtain rfl : c' = c := Option.some.inj (h.callerHandle.symm.trans hfr.callerHandle)
    exact ⟨kind, rfl, rfl⟩
  | ending _ h | awaited _ h => exact absurd h.point (hpoint hframe).ne_finished
  | resolved => cases hframe

/-- How often a coroutine has suspended in an awaitable and has been resumed. -/
theorem resumed :
    r.suspends ≤ 1 ∧ (r.resumes = r.suspends ∨ pc = some (.suspended a)) ∧
      ∀ fr, frame = some fr → fr.point ≠ .finished → r.resumes = 0 := by
  cases h with
  | unused => exact ⟨zero_le_one, .inl rfl, fun _ _ _ => rfl⟩
  | inBody => exact ⟨le_rfl, .inr rfl, fun _ _ _ => rfl⟩
  | ending hn hstored =>
    refine ⟨hn, .inl rfl, fun fr hframe hpoint => ?_⟩
    cases hframe
    exact absurd hstored.point hpoint
  | awaited hn hover =>
    refine ⟨hn, .inl rfl, fun fr hframe hpoint => ?_⟩
    cases hframe
    exact absurd hover.point hpoint
  | resolved hn =>
    refine ⟨hn, .inl rfl, fun fr hframe => ?_⟩
    cases hframe

end

end AwaitableOk

/-! ### The invariant -/

namespace LazyResults

variable {α ε : Type} {s t : LazyResults α ε} {o rhs : LazyObject} {a c f : ℕ}
  {frame : LazyFrame α ε}

def destroys (s : LazyResults α ε) (f : ℕ) : Option ℕ := (s.frames f).map (·.destroys)

def AwaitableAt (s : LazyResults α ε) (a : ℕ) : Prop :=
  AwaitableOk a (s.awaits a) ((s.awaits a).awaiter.map s.callers)
    ((s.mState (.awaitable a)).bind s.frames)

/-- An object that is not an awaitable holds a frame whose body has not begun or has ended. -/
def ObjectOk (s : LazyResults α ε) : LazyObject → Prop
  | .awaitable a => s.alive (.awaitable a) = true → s.AwaitableAt a
  | o => ∀ f frame, s.mState o = some f → s.frames f = some frame → frame.Rests

/-- A coroutine in a `co_await` is the awaiter of an awaitable that is alive. -/
def CallerOk (s : LazyResults α ε) (c : ℕ) : Prop :=
  ∀ a, s.callers c = .suspended a ∨ s.callers c = .resuming a →
    s.alive (.awaitable a) = true ∧ (s.awaits a).awaiter = some c

structure Core (s : LazyResults α ε) : Prop where
  handles : Handles s.alive s.mState s.destroys
  sound : ∀ f frame, s.frames f = some frame → frame.Sound
  objects : ∀ o, s.ObjectOk o
  callers : ∀ c, s.CallerOk c
  delivered : ∀ d ∈ s.deliveries, ∃ frame, s.frames d.frame = some frame ∧
    frame.outcome = some d.outcome
  failed : s.failed = false

theorem core_initial : Core (initial : LazyResults α ε) := by
  refine ⟨⟨.of_eq_nil fun _ => rfl, fun _ _ => rfl, fun f => ⟨fun hf => ?_, fun hf => ?_⟩,
    fun f n hn => ?_⟩, ?_, ?_, ?_, ?_, rfl⟩
  · exact absurd hf (not_held_of_eq_nil fun _ => rfl)
  · cases hf
  · cases hn
  · intro f frame hf
    cases hf
  · intro o
    cases o with
    | result =>
      intro f frame hf
      cases hf
    | awaitable =>
      intro hf
      cases hf
  · rintro c a (h | h)
    · cases h
    · cases h
  · intro d hd
    cases hd

theorem Core.frame_of_handle (h : Core s) (ho : s.mState o = some f) :
    ∃ frame, s.frames f = some frame ∧ frame.destroys = 0 := by
  obtain ⟨frame, hframe, hd⟩ := Option.map_eq_some_iff.1 (h.handles.live ho)
  exact ⟨frame, hframe, hd⟩

theorem Core.rests (h : Core s) (hplain : ∀ a, o ≠ .awaitable a) (ho : s.mState o = some f)
    (hframe : s.frames f = some frame) : frame.Rests := by
  have hobject := h.objects o
  cases o with
  | result => exact hobject f frame ho hframe
  | awaitable a => exact absurd rfl (hplain a)

theorem Core.awaitableAt (h : Core s) (halive : s.alive (.awaitable a) = true) : s.AwaitableAt a :=
  h.objects (.awaitable a) halive

/-! ### What an operation touches -/

/-- Only the objects `os`, the coroutines `cs` and frames are touched. -/
structure Elsewhere (os : List LazyObject) (cs : List ℕ) (s t : LazyResults α ε) : Prop where
  alive : ∀ o, o ∉ os → t.alive o = s.alive o
  mState : ∀ o, o ∉ os → t.mState o = s.mState o
  awaits : ∀ a, LazyObject.awaitable a ∉ os → t.awaits a = s.awaits a
  callers : ∀ c, c ∉ cs → t.callers c = s.callers c
  deliveries : t.deliveries = s.deliveries
  failed : t.failed = s.failed

/-- The frames change soundly and keep their outcomes. -/
structure FramesKept (s t : LazyResults α ε) : Prop where
  sound : ∀ f frame, t.frames f = some frame → s.frames f = some frame ∨ frame.Sound
  outcome : ∀ f frame p, s.frames f = some frame → frame.outcome = some p →
    ∃ frame', t.frames f = some frame' ∧ frame'.outcome = some p

theorem FramesKept.of_eq (h : t.frames = s.frames) : FramesKept s t :=
  ⟨fun _ _ hf => .inl (h ▸ hf), fun _ frame _ hf hp => ⟨frame, h ▸ hf, hp⟩⟩

theorem FramesKept.of_update {frame' : LazyFrame α ε}
    (h : t.frames = update s.frames f (some frame')) (hsound : frame'.Sound)
    (houtcome : ∀ frame p, s.frames f = some frame → frame.outcome = some p →
      frame'.outcome = some p) :
    FramesKept s t := by
  constructor
  · intro g frame hg
    rw [h] at hg
    by_cases hgf : g = f
    · subst hgf
      rw [update_self] at hg
      cases hg
      exact .inr hsound
    · rw [update_of_ne hgf] at hg
      exact .inl hg
  · intro g frame p hg hp
    rw [h]
    by_cases hgf : g = f
    · subst hgf
      exact ⟨frame', update_self .., houtcome frame p hg hp⟩
    · exact ⟨frame, (update_of_ne hgf _ _).trans hg, hp⟩

/-- An object that is not touched, with a frame that is not touched. -/
theorem ObjectOk.congr (h : s.ObjectOk o) (halive : t.alive o = s.alive o)
    (hstate : t.mState o = s.mState o) (hframe : ∀ f, s.mState o = some f → t.frames f = s.frames f)
    (hawait : ∀ a, o = .awaitable a → t.awaits a = s.awaits a ∧
      ∀ c, (s.awaits a).awaiter = some c → t.callers c = s.callers c) : t.ObjectOk o := by
  have hplain : (∀ f frame, s.mState o = some f → s.frames f = some frame → frame.Rests) →
      ∀ f frame, t.mState o = some f → t.frames f = some frame → frame.Rests := by
    intro h f frame hf hfr
    rw [hstate] at hf
    rw [hframe f hf] at hfr
    exact h f frame hf hfr
  cases o with
  | result => exact hplain h
  | awaitable a =>
    intro ha
    obtain ⟨hrecord, hcaller⟩ := hawait a rfl
    have hok : s.AwaitableAt a := h (halive ▸ ha)
    have hpc : (s.awaits a).awaiter.map t.callers = (s.awaits a).awaiter.map s.callers :=
      Option.map_congr fun c hc => hcaller c hc
    have hbind : (s.mState (.awaitable a)).bind t.frames =
        (s.mState (.awaitable a)).bind s.frames :=
      Option.bind_congr fun f hf => hframe f hf
    unfold AwaitableAt
    rw [hrecord, hstate, hpc, hbind]
    exact hok

/-- **An operation touches the objects `os` and the coroutines `cs`.**  The frames of the other
objects are as they were, and so are the awaiters of the other awaitables; then only what is touched
has to be looked at. -/
theorem Core.change {os : List LazyObject} {cs : List ℕ} (h : Core s) (he : Elsewhere os cs s t)
    (hhandles : Handles t.alive t.mState t.destroys) (hframes : FramesKept s t)
    (hothers : ∀ o, o ∉ os → ∀ f, s.mState o = some f → t.frames f = s.frames f)
    (hobjects : ∀ o ∈ os, t.ObjectOk o)
    (hin : ∀ c a, s.callers c = .suspended a ∨ s.callers c = .resuming a →
      (c ∈ cs ↔ LazyObject.awaitable a ∈ os))
    (hcallers : ∀ c ∈ cs, t.CallerOk c) : Core t := by
  refine ⟨hhandles, fun f frame hf => ?_, fun o => ?_, fun c => ?_, fun d hd => ?_,
    he.failed.trans h.failed⟩
  · rcases hframes.sound f frame hf with hs | hs
    · exact h.sound f frame hs
    · exact hs
  · by_cases ho : o ∈ os
    · exact hobjects o ho
    · by_cases halive : s.alive o = true
      · refine (h.objects o).congr (he.alive o ho) (he.mState o ho) (hothers o ho) ?_
        rintro a rfl
        refine ⟨he.awaits a ho, fun c hc => he.callers c fun hmem => ho ?_⟩
        -- the awaiter is in the `co_await` of this awaitable, so it is not one of `cs`
        have hat := h.awaitableAt halive
        have hpc : (s.awaits a).awaiter.map s.callers = some (s.callers c) := by
          rw [hc]
          rfl
        rcases hat.of_awaiter hc with hpc' | hpc'
        · exact (hin c a (.inl (Option.some.inj (hpc.symm.trans hpc')))).1 hmem
        · exact (hin c a (.inr (Option.some.inj (hpc.symm.trans hpc')))).1 hmem
      · have hdead : t.alive o = false := (he.alive o ho).trans (Bool.eq_false_iff.2 halive)
        have hnull : t.mState o = none := hhandles.vacant o hdead
        cases o with
        | result =>
          intro f frame hf
          cases hnull.symm.trans hf
        | awaitable =>
          intro ha
          cases hdead.symm.trans ha
  · by_cases hc : c ∈ cs
    · exact hcallers c hc
    · intro a ha
      rw [he.callers c hc] at ha
      have hos : LazyObject.awaitable a ∉ os := fun hmem => hc ((hin c a ha).2 hmem)
      rw [he.alive _ hos, he.awaits a hos]
      exact h.callers c a ha
  · rw [he.deliveries] at hd
    obtain ⟨frame, hf, hp⟩ := h.delivered d hd
    exact hframes.outcome d.frame frame d.outcome hf hp

end LazyResults
end Concurrencpp
