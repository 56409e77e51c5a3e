import Mathlib.Tactic

/-!
# `await_via_functor`

A coroutine that suspends to continue somewhere else leaves an `await_via_functor` behind.  Its
suspensions are numbered; the functor of a suspension refers to the coroutine handle and to the flag
`m_interrupted` of the awaitable.

* `AwaitViaFunctor` has the two members of the class.  Every functor is made with both, is left
  without both when it has been moved from, and loses the flag when it is invoked: `coherent`.
* `Suspensions` holds the flags of the awaitables and counts, for every suspension, how often the
  handle has been called, a functor with the flag has been invoked, and one has been destroyed.
* `awaitResume` is `await_resume` of the four awaitables that make such functors.
-/

namespace Concurrencpp

open Function (update update_of_ne)

structure Suspensions where
  interrupted : ℕ → Bool
  resumes : ℕ → ℕ
  invoked : ℕ → ℕ
  destroyed : ℕ → ℕ

namespace Suspensions

def initial : Suspensions where
  interrupted := fun _ => false
  resumes := fun _ => 0
  invoked := fun _ => 0
  destroyed := fun _ => 0

/-- `m_caller_handle()`; calling a null handle is undefined. -/
def resume (w : Suspensions) : Option ℕ → Suspensions
  | none => w
  | some k => { w with resumes := update w.resumes k (w.resumes k + 1) }

/-- Nothing has happened to the functor of the suspension. -/
structure Pending (w : Suspensions) (k : ℕ) : Prop where
  interrupted : w.interrupted k = false
  resumes : w.resumes k = 0
  invoked : w.invoked k = 0
  destroyed : w.destroyed k = 0

/-- The coroutine has been resumed once: by the functor, or by its destructor with the flag set. -/
structure Settled (w : Suspensions) (k : ℕ) : Prop where
  resumes : w.resumes k = 1
  once : w.invoked k + w.destroyed k = 1
  interrupted : w.interrupted k = true ↔ w.destroyed k = 1

end Suspensions

structure AwaitViaFunctor where
  callerHandle : Option ℕ
  interrupted : Option ℕ
  coherent : interrupted = none ∨ interrupted = callerHandle
  deriving DecidableEq

namespace AwaitViaFunctor

/-- The constructor. -/
def make (k : ℕ) : AwaitViaFunctor := ⟨some k, some k, Or.inr rfl⟩

/-- What the move constructor leaves behind. -/
def moved : AwaitViaFunctor := ⟨none, none, Or.inl rfl⟩

/-- `operator()`, without the call of the handle. -/
def disarm (f : AwaitViaFunctor) : AwaitViaFunctor := ⟨f.callerHandle, none, Or.inl rfl⟩

/-- The destructor. -/
def destroy (f : AwaitViaFunctor) (w : Suspensions) : Suspensions :=
  match f.interrupted with
  | none => w
  | some k =>
      { w with
        interrupted := update w.interrupted k true
        destroyed := update w.destroyed k (w.destroyed k + 1) }.resume f.callerHandle

/-- `operator()`; `none` when its assertion fails. -/
def call (f : AwaitViaFunctor) (w : Suspensions) : Option (AwaitViaFunctor × Suspensions) :=
  match f.interrupted with
  | none => none
  | some k =>
      some (f.disarm,
        { w with invoked := update w.invoked k (w.invoked k + 1) }.resume f.callerHandle)

end AwaitViaFunctor

/-! ### What a destructor and a call do to the suspensions -/

namespace Suspensions

variable {w w' : Suspensions} {f : AwaitViaFunctor} {k j : ℕ}

/-- Every suspension but `k` is as before. -/
def SameBut (w w' : Suspensions) (k : ℕ) : Prop :=
  ∀ j, j ≠ k → w'.interrupted j = w.interrupted j ∧ w'.resumes j = w.resumes j ∧
    w'.invoked j = w.invoked j ∧ w'.destroyed j = w.destroyed j

theorem Pending.congr (h : w.Pending j) (hw : w.SameBut w' k) (hj : j ≠ k) : w'.Pending j := by
  obtain ⟨hi, hr, hv, hd⟩ := hw j hj
  exact ⟨hi.trans h.interrupted, hr.trans h.resumes, hv.trans h.invoked, hd.trans h.destroyed⟩

theorem Settled.congr (h : w.Settled j) (hw : w.SameBut w' k) (hj : j ≠ k) : w'.Settled j := by
  obtain ⟨hi, hr, hv, hd⟩ := hw j hj
  exact ⟨hr.trans h.resumes, by rw [hv, hd]; exact h.once, by rw [hi, hd]; exact h.interrupted⟩

theorem handle_of_armed (h : f.interrupted = some k) : f.callerHandle = some k := by
  rcases f.coherent with hf | hf
  · cases h.symm.trans hf
  · exact hf.symm.trans h

theorem destroy_of_disarmed (h : f.interrupted = none) : f.destroy w = w := by
  unfold AwaitViaFunctor.destroy
  rw [h]

/-- The destructor of a functor with the flag settles its suspension, and sets the flag. -/
theorem destroy_of_armed (h : f.interrupted = some k) (hw : w.Pending k) :
    (f.destroy w).Settled k ∧ w.SameBut (f.destroy w) k := by
  simp only [AwaitViaFunctor.destroy, h, handle_of_armed h, resume]
  refine ⟨⟨?_, ?_, ?_⟩, fun j hj => ⟨?_, ?_, rfl, ?_⟩⟩
  · simp [hw.resumes]
  · simp [hw.invoked, hw.destroyed]
  · simp [hw.destroyed]
  · exact update_of_ne hj ..
  · exact update_of_ne hj ..
  · exact update_of_ne hj ..

/-- The call of a functor with the flag settles its suspension, and leaves the flag alone. -/
theorem call_of_armed (h : f.interrupted = some k) (hw : w.Pending k) :
    ∃ w', f.call w = some (f.disarm, w') ∧ w'.Settled k ∧ w.SameBut w' k := by
  simp only [AwaitViaFunctor.call, h, handle_of_armed h, resume]
  refine ⟨_, rfl, ⟨?_, ?_, ?_⟩, fun j hj => ⟨rfl, ?_, ?_, rfl⟩⟩
  · simp [hw.resumes]
  · simp [hw.invoked, hw.destroyed]
  · simp [hw.interrupted, hw.destroyed]
  · exact update_of_ne hj ..
  · exact update_of_ne hj ..

end Suspensions

/-! ### `await_resume` -/

/-- The awaitables that make an `await_via_functor`. -/
inductive Awaitable
  | resumeOn
  | initialScheduling
  | accumulating
  | delayObject
  deriving DecidableEq, Repr

/-- `errors::broken_task`, with its message. -/
structure BrokenTask where
  message : String
  deriving DecidableEq, Repr

def Awaitable.brokenTask : Awaitable → BrokenTask
  | .accumulating => ⟨""⟩
  | _ => ⟨"concurrencpp::result - associated task was interrupted abnormally"⟩

def Awaitable.awaitResume (a : Awaitable) (interrupted : Bool) : Except BrokenTask Unit :=
  if interrupted then .error a.brokenTask else .ok ()

/-- The coroutine has been resumed exactly once, and `await_resume` throws exactly when the functor
has been destroyed without having been invoked. -/
structure ResumedOnce (w : Suspensions) (k : ℕ) : Prop where
  resumes : w.resumes k = 1
  invoked : w.invoked k = 1 → w.destroyed k = 0 ∧
    ∀ a : Awaitable, a.awaitResume (w.interrupted k) = .ok ()
  notInvoked : w.invoked k ≠ 1 → w.destroyed k = 1 ∧
    ∀ a : Awaitable, a.awaitResume (w.interrupted k) = .error a.brokenTask

theorem Suspensions.Settled.resumedOnce {w : Suspensions} {k : ℕ} (h : w.Settled k) :
    ResumedOnce w k where
  resumes := h.resumes
  invoked hi := by
    have hd : w.destroyed k = 0 := by
      have := h.once
      omega
    have hflag : w.interrupted k = false := by
      rw [← Bool.not_eq_true, h.interrupted, hd]
      simp
    exact ⟨hd, fun a => by rw [hflag]; rfl⟩
  notInvoked hi := by
    have hd : w.destroyed k = 1 := by
      have := h.once
      omega
    have hflag : w.interrupted k = true := h.interrupted.2 hd
    exact ⟨hd, fun a => by rw [hflag]; rfl⟩

end Concurrencpp
